import EmmcfsModel.Btree.Theorems.Insert

namespace Emmcfs

open Code Search SortedList

variable [LinearOrder κ] {tree : BtreeOps κ} {s s' : Btree κ ν} {key : κ} {id : Nat}
  {recs l l' : List (BtreeRecord κ ν)} {r q : BtreeRecord κ ν} {leaves : List Nat}
  {up : List (List Nat)}

-- The position of the greatest record that is not above the key, or -1 if all are above.
def Btree.FloorAt (s : Btree κ ν) (recs : List (BtreeRecord κ ν)) (key : κ) (id : Nat) (pos : Int) :
    Prop :=
  (∃ (n : Nat) (r : BtreeRecord κ ν), pos = n ∧ (s.bnode id).recs[n]? = some r ∧
    IsGreatest { k | k ∈ recs.map (·.key) ∧ k ≤ key } r.key) ∨
  ((∀ q ∈ recs, key < q.key) ∧ pos = -1)

section Compare

variable (hcmp : Compares tree.compFn)

include hcmp

theorem against_neg_iff : tree.against key r < 0 ↔ r.key < key :=
  hcmp.neg_iff ..

theorem against_zero_iff : tree.against key r = 0 ↔ r.key = key :=
  hcmp.zero_iff ..

theorem against_pos_iff : 0 < tree.against key r ↔ key < r.key :=
  hcmp.pos_iff ..

theorem rising_of_sorted (hs : Sorted (recs.map (·.key))) : Rising (tree.against key) recs := by
  refine (List.pairwise_map.mp hs).imp fun {x y} hlt => ?_
  rw [against_pos_iff hcmp, against_pos_iff hcmp, against_neg_iff hcmp, against_neg_iff hcmp]
  exact ⟨fun h => h.trans hlt, fun h => hlt.trans h⟩

-- What the end of a search says about the order.
theorem endsAt_cases (hend : EndsAt (tree.against key) (l ++ q :: l') l.length) :
    q.key = key ∨ (q.key < key ∧ ∀ y ∈ l', key < y.key) ∨ (l = [] ∧ key < q.key) := by
  simpa only [against_zero_iff hcmp, against_neg_iff hcmp, against_pos_iff hcmp]
    using endsAt_iff.mp hend

variable (hs : Sorted ((l ++ q :: l').map (·.key)))
  (hend : EndsAt (tree.against key) (l ++ q :: l') l.length)

include hs hend

theorem isGreatest_iff : IsGreatest { k | k ∈ (l ++ q :: l').map (·.key) ∧ k ≤ key } q.key ↔
    ∃ x ∈ l ++ q :: l', x.key ≤ key := by
  constructor
  case mp  => exact fun h => ⟨q, by simp, h.left.right⟩
  case mpr =>
    rintro ⟨x, hx, hle⟩
    obtain ⟨_, hq, hl⟩ := List.pairwise_append.mp (List.pairwise_map.mp hs)
    have hbehind := (List.pairwise_cons.mp hq).left
    have hqk : q.key ≤ key ∧ ∀ y ∈ l', key < y.key := by
      rcases endsAt_cases hcmp hend with h | ⟨h, hb⟩ | ⟨rfl, h⟩
      · exact ⟨h.le, fun y hy => h ▸ hbehind y hy⟩
      · exact ⟨h.le, hb⟩
      · rcases List.mem_cons.mp hx with rfl | hx
        · exact absurd hle (not_le.mpr h)
        · exact absurd hle (not_le.mpr (h.trans (hbehind x hx)))
    refine ⟨⟨List.mem_map.mpr ⟨q, by simp, rfl⟩, hqk.left⟩, fun k ⟨hk, hkle⟩ => ?_⟩
    obtain ⟨y, hy, rfl⟩ := List.mem_map.mp hk
    rcases List.mem_append.mp hy with hy | hy
    · exact (hl y hy q (by simp)).le
    · rcases List.mem_cons.mp hy with rfl | hy
      · exact le_rfl
      · exact absurd hkle (not_le.mpr (hqk.right y hy))

theorem sorted_insert_iff (hr : r.key = key) (hne : q.key ≠ key) :
    Sorted ((l ++ q :: r :: l').map (·.key)) ↔ ∃ x ∈ l ++ q :: l', x.key ≤ key := by
  rw [← isGreatest_iff hcmp hs hend]
  obtain ⟨hl, hq, hlq⟩ := List.pairwise_append.mp (List.pairwise_map.mp hs)
  obtain ⟨hbehind, hl'⟩ := List.pairwise_cons.mp hq
  constructor
  case mp =>
    intro hsorted
    obtain ⟨_, hqr, _⟩ := List.pairwise_append.mp (List.pairwise_map.mp hsorted)
    have hlt := (List.pairwise_cons.mp hqr).left r (by simp)
    exact (isGreatest_iff hcmp hs hend).mpr ⟨q, by simp, hr ▸ hlt.le⟩
  case mpr =>
    intro hg
    have hlt : q.key < key := lt_of_le_of_ne hg.left.right hne
    have hb : ∀ y ∈ l', key < y.key := by
      rcases endsAt_cases hcmp hend with h | ⟨_, hb⟩ | ⟨_, h⟩
      · exact absurd h hne
      · exact hb
      · exact absurd hlt h.not_gt
    refine List.pairwise_map.mpr (List.pairwise_append.mpr ⟨hl, ?_, fun x hx y hy => ?_⟩)
    · refine List.pairwise_cons.mpr ⟨fun y hy => ?_, ?_⟩
      case refine_2 => exact List.pairwise_cons.mpr ⟨fun y hy => hr ▸ hb y hy, hl'⟩
      rcases List.mem_cons.mp hy with rfl | hy
      · exact hr ▸ hlt
      · exact hbehind y hy
    · rcases List.mem_cons.mp hy with rfl | hy
      · exact hlq x hx y (by simp)
      · rcases List.mem_cons.mp hy with rfl | hy
        · exact (hlq x hx q (by simp)).trans (hr ▸ hlt)
        · exact hlq x hx y (by simp [hy])

end Compare

section Minimum

variable (hcmp : Compares tree.compFn) (hc : s.Calm) (hu : s.Upper tree 1 (leaves :: up) recs)
  (hs : Sorted (recs.map (·.key)))

include hcmp hc hu hs

theorem emmcfsBtreeFind_floor_iff : ∃ id pos, emmcfsBtreeFind tree key s = .ok (id, pos) s ∧
    (s.FloorAt recs key id pos ↔ ∃ q ∈ recs, q.key ≤ key) ∧
    ((∀ q ∈ recs, key < q.key) → (s.bnode id).recs[pos]? = recs[0]?) := by
  have hasc := @rising_of_sorted _ _ _ tree key _ hcmp hs
  obtain ⟨id, pos, hok, k, path, hf⟩ := emmcfsBtreeFind_returns hu hasc hc
  obtain ⟨l, q, l', rfl, rfl, _⟩ := hf.ends.exists_append
  have hget : (s.bnode id).recs[pos]? = some q := by rw [← hf.node]; simp
  refine ⟨id, pos, hok, ?_, fun hall => ?_⟩
  · rw [← isGreatest_iff hcmp hs hf.ends]
    constructor
    case mp =>
      rintro (⟨n, r, hn, hr, hg⟩ | ⟨_, hneg⟩)
      · obtain rfl := Int.ofNat.inj hn
        cases hget.symm.trans hr
        exact hg
      · exact absurd hneg (by omega)
    case mpr => exact fun hg => .inl ⟨pos, q, rfl, hget, hg⟩
  · have hnil := hf.ends.eq_nil fun y hy => (against_pos_iff hcmp).mpr (hall y hy)
    subst hnil
    exact hget

theorem emmcfsBtreeInsert_sorted_iff (hr : r.Short tree) (habsent : ∀ q ∈ recs, q.key ≠ r.key) :
    wp (emmcfsBtreeInsert tree r)
      (fun _ s' => ∃ leaves' up' recs', s'.Upper tree 1 (leaves' :: up') recs' ∧
        recs'.Perm (r :: recs) ∧ (Sorted (recs'.map (·.key)) ↔ ∃ q ∈ recs, q.key ≤ r.key))
      (fun e _ => e = .enospc) False s := by
  refine wp_mono (emmcfsBtreeInsert_spec hc hu (rising_of_sorted hcmp hs) hr) ?_ ?_ id
  · rintro _ s' ⟨l, q, l', rfl, _, hend, _, leaves', up', hu', _⟩
    refine ⟨leaves', up', _, hu', ?_, sorted_insert_iff hcmp hs hend rfl (habsent q (by simp))⟩
    have hmid : l ++ q :: r :: l' = (l ++ [q]) ++ r :: l' := by simp
    rw [hmid]
    refine List.perm_middle.trans (.of_eq ?_)
    simp
  · rintro e s' (⟨_, _, q, hq, h₀⟩ | he)
    · exact absurd ((against_zero_iff hcmp).mp h₀) (habsent q hq)
    · exact he

-- A search ends where its callers expect it if and only if not all records are above the key. Then,
-- and only then, an insertion of an absent key keeps the records in order.
theorem find_below_iff :
    (∀ key, ∃ id pos, emmcfsBtreeFind tree key s = .ok (id, pos) s ∧
      (s.FloorAt recs key id pos ↔ ∃ q ∈ recs, q.key ≤ key) ∧
      ((∀ q ∈ recs, key < q.key) → (s.bnode id).recs[pos]? = recs[0]?)) ∧
    (∀ r, r.Short tree → (∀ q ∈ recs, q.key ≠ r.key) →
      (∃ s', emmcfsBtreeInsert tree r s = .fail .enospc s') ∨
      ∃ s' leaves' up' recs', emmcfsBtreeInsert tree r s = .ok () s' ∧
        s'.Upper tree 1 (leaves' :: up') recs' ∧ recs'.Perm (r :: recs) ∧
        (Sorted (recs'.map (·.key)) ↔ ∃ q ∈ recs, q.key ≤ r.key)) := by
  refine ⟨fun key => emmcfsBtreeFind_floor_iff hcmp hc hu hs, fun r hr habsent => ?_⟩
  have hw := emmcfsBtreeInsert_sorted_iff hcmp hc hu hs hr habsent
  cases hm : emmcfsBtreeInsert tree r s
  case ok _ s' =>
    obtain ⟨leaves', up', recs', h⟩ := (wp_of_ok hm).mp hw
    exact .inr ⟨s', leaves', up', recs', rfl, h⟩
  case fail e s' =>
    obtain rfl := (wp_of_fail hm).mp hw
    exact .inl ⟨s', rfl⟩
  case halt => simp [wp, hm] at hw

end Minimum

-- A tree of one leaf whose keys are numbers.
def numberTree : BtreeOps Nat where
  compFn m n      := m - n
  keyLen _        := 8
  nodeSizeBytes   := 4096
  maxRecordLen    := 64
  bitsNum         := 8 * 4096
  isMountFinished := true
  node_size_ge    := pageNode_size_ge
  node_size_le    := pageNode_size_le
  record_len_le   := by decide

theorem numberTree_compares : Compares numberTree.compFn :=
  ⟨fun m n => by simp only [numberTree]; omega, fun m n => by simp only [numberTree]; omega⟩

def numberRecord (n : Nat) : BtreeRecord Nat Unit :=
  ⟨n, 16, .data ()⟩

def oneLeaf : Btree Nat Unit where
  bnodes      := [(1, ⟨.leaf, [numberRecord 5, numberRecord 7], 4069 - 2 * 20, 0, 0⟩)]
  bitmap      := 2 ^ 2 - 1
  firstFreeId := 2
  freeNum     := 8 * 4096 - 2
  rootBnodeId := 1
  btreeHeight := 1

theorem oneLeaf_upper : oneLeaf.Upper numberTree 1 [[1]] [numberRecord 5, numberRecord 7] where
  shape  := by decide +kernel
  nodup  := by decide
  bitmap := .of_ones (k := 2) (by decide) rfl rfl rfl
  height := rfl

theorem find_below_iff_oneLeaf :
    ∃ id pos, emmcfsBtreeFind numberTree 6 oneLeaf = .ok (id, pos) oneLeaf ∧
    oneLeaf.FloorAt [numberRecord 5, numberRecord 7] 6 id pos := by
  have hcalm : oneLeaf.Calm := rfl
  obtain ⟨id, pos, hok, hiff, _⟩ :=
    (find_below_iff numberTree_compares hcalm oneLeaf_upper (by decide)).left 6
  exact ⟨id, pos, hok, hiff.mpr ⟨numberRecord 5, by simp, by decide⟩⟩

-- The search for a key below the two ends at the first of them, and the record goes behind it.
theorem not_sorted_oneLeaf : emmcfsBtreeFind numberTree 3 oneLeaf = .ok (1, 0) oneLeaf ∧
    ∃ s', emmcfsBtreeInsert numberTree (numberRecord 3) oneLeaf = .ok () s' ∧
      (s'.bnode 1).recs = [numberRecord 5, numberRecord 3, numberRecord 7] :=
  ⟨rfl, _, rfl, rfl⟩

end Emmcfs
