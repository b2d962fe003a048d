import EmmcfsModel.Lib.Search
import EmmcfsModel.Lib.SortedList
import EmmcfsModel.Btree.Theorems.Failure

namespace Emmcfs

open Code Search

variable {tree : BtreeOps κ} {s s' : Btree κ ν} {key : κ} {recs : List (BtreeRecord κ ν)}

-- How a record compares with the key that is searched for.
def BtreeOps.against (tree : BtreeOps κ) (key : κ) (r : BtreeRecord κ ν) : Int :=
  tree.compFn r.key key

section Node

variable {first last fuel pos : Nat} {prevPos : Option Nat}

-- The loop ends with the last record below.
theorem searchLoop_end (habove : ∀ r ∈ recs.drop first, 0 < tree.against key r)
    (hlen : first ≤ recs.length) (hbelow : ∀ r ∈ recs.take first, tree.against key r < 0)
    (hprev : ∀ n, first = n + 1 → prevPos = some n)
    (hfirst : ∃ r, recs[0]? = some r ∧ tree.against key r ≤ 0) :
    ∃ pos, prevPos = some pos ∧ EndsAt (tree.against key) recs pos := by
  obtain ⟨r, hr, hle⟩ := hfirst
  cases first
  case zero =>
    have := habove r (List.mem_of_getElem? (by rwa [List.drop_zero]))
    omega
  case succ n =>
    have hn : recs[n]? = some recs[n] := List.getElem?_eq_getElem hlen
    refine ⟨n, hprev n rfl, recs[n], hn, .inr (.inl ⟨hbelow _ ?_, habove⟩)⟩
    exact List.mem_take_iff_getElem.mpr ⟨n, by omega, rfl⟩

theorem searchLoop_spec (hs : Rising (tree.against key) recs) (hle : first ≤ last)
    (hlast : last ≤ recs.length) (hfuel : last - first ≤ fuel)
    (hbelow : ∀ r ∈ recs.take first, tree.against key r < 0)
    (habove : ∀ r ∈ recs.drop last, 0 < tree.against key r)
    (hprev : ∀ n, first = n + 1 → prevPos = some n)
    (hfirst : ∃ r, recs[0]? = some r ∧ tree.against key r ≤ 0) :
    ∃ pos, searchLoop tree recs key fuel first last prevPos = some pos ∧
      EndsAt (tree.against key) recs pos := by
  induction fuel generalizing first last prevPos
  case zero =>
    obtain rfl : first = last := by omega
    exact searchLoop_end habove hlast hbelow hprev hfirst
  case succ fuel ih =>
    rw [searchLoop]
    by_cases hlt : first < last
    case neg =>
      obtain rfl : first = last := by omega
      rw [if_neg hlt]
      exact searchLoop_end habove hlast hbelow hprev hfirst
    case pos =>
      rw [if_pos hlt]
      generalize hm : first + (last - first) >>> 1 = mid
      rw [Nat.shiftRight_one] at hm
      have hmid : recs[mid]? = some recs[mid] := List.getElem?_eq_getElem (by omega)
      generalize recs[mid] = r at hmid
      obtain ⟨a, b, rfl, rfl⟩ := SortedList.exists_append_of_getElem? hmid
      simp only [hmid]
      split
      case isTrue h₀ => exact ⟨a.length, rfl, endsAt_iff.mpr (.inl h₀)⟩
      case isFalse h₀ =>
        split
        case isTrue hp =>
          refine ih (by omega) (by simp) (by omega) hbelow (fun q hq => ?_) hprev
          rw [List.drop_left] at hq
          exact (List.mem_cons.mp hq).elim (fun he => he ▸ hp) (hs.above hp q)
        case isFalse hp =>
          have hn : tree.against key r < 0 := by
            rw [BtreeOps.against]
            omega
          refine ih (by omega) hlast (by omega) (fun q hq => ?_) habove fun n hn => ?_
          · have htake : (a ++ r :: b).take (a.length + 1) = a ++ [r] := by
              simp [List.take_append]
            rw [htake, List.mem_append, List.mem_singleton] at hq
            exact hq.elim (hs.below hn q) fun he => he ▸ hn
          · rw [Nat.succ.inj hn]

theorem searchBnode_spec (hs : Rising (tree.against key) recs) (hne : recs ≠ []) :
    ∃ pos, searchBnode tree recs key = some pos ∧ EndsAt (tree.against key) recs pos := by
  have hpos := List.length_pos_iff.mpr hne
  have h₀ : recs[0]? = some recs[0] := List.getElem?_eq_getElem hpos
  have hl : recs[recs.length - 1]? = some recs[recs.length - 1] :=
    List.getElem?_eq_getElem (by omega)
  have hdrop : recs.drop (recs.length - 1 + 1) = [] := List.drop_eq_nil_of_le (by omega)
  simp only [searchBnode, h₀, hl]
  split
  case isTrue hlt => exact ⟨_, rfl, _, hl, .inr (.inl ⟨hlt, by simp [hdrop]⟩)⟩
  case isFalse hlt =>
    split
    case isTrue hp =>
      have hall : 0 < tree.compFn recs[recs.length - 1].key key := by
        by_cases h1 : recs.length - 1 = 0
        · simpa only [h1] using hp
        · exact (List.pairwise_iff_getElem.mp hs 0 (recs.length - 1) hpos (by omega) (by omega)).left hp
      exact ⟨0, if_pos hall, _, h₀, .inr (.inr ⟨rfl, hp⟩)⟩
    case isFalse hp =>
      refine searchLoop_spec hs (by omega) le_rfl (by omega) (by simp) (by simp) (by simp) ?_
      exact ⟨_, h₀, Int.not_lt.mp hp⟩

-- Without a match the loop ends at some record, in whatever order they stand.
theorem searchLoop_of_no_match (hm : ∀ r ∈ recs, tree.compFn r.key key ≠ 0) (hlast : last ≤ recs.length)
    (hfuel : last - first ≤ fuel) (hprev : ∀ p, prevPos = some p → p < recs.length)
    (hnone : prevPos = none → first < last ∧ first = 0 ∧
      ∀ r, recs[0]? = some r → tree.compFn r.key key < 0) :
    ∃ pos < recs.length, searchLoop tree recs key fuel first last prevPos = some pos := by
  induction fuel generalizing first last prevPos
  case zero =>
    cases prevPos
    case none   => have := hnone rfl; omega
    case some p => exact ⟨p, hprev p rfl, rfl⟩
  case succ fuel ih =>
    rw [searchLoop]
    split
    case isFalse hlt =>
      cases prevPos
      case none   => exact absurd (hnone rfl).left hlt
      case some p => exact ⟨p, hprev p rfl, rfl⟩
    case isTrue hlt =>
      generalize hmid : first + (last - first) >>> 1 = mid
      rw [Nat.shiftRight_one] at hmid
      have hlt' : mid < recs.length := by omega
      have hget : recs[mid]? = some recs[mid] := List.getElem?_eq_getElem hlt'
      have hne := hm _ (List.mem_of_getElem? hget)
      simp only [hget, if_neg hne]
      split
      case isTrue hpos =>
        refine ih (by omega) (by omega) hprev fun hp => ?_
        obtain ⟨_, h₀, hfirst⟩ := hnone hp
        refine ⟨Nat.lt_of_le_of_ne (by omega) fun he => ?_, h₀, hfirst⟩
        obtain rfl : mid = 0 := by omega
        have := hfirst _ hget
        omega
      case isFalse => exact ih hlast (by omega) (fun p hp => Option.some.inj hp ▸ hlt') nofun

end Node

section Descent

variable {levels up : List (List Nat)} {path : List (Nat × Nat)} {ids as bs : List Nat} {id i : Nat}
  {type : NodeType}

namespace Btree

theorem recsOf_eq_flatten : s.recsOf ids = (ids.map fun id => (s.bnode id).recs).flatten :=
  List.flatMap_def ..

theorem rising_node (hs : Rising (tree.against key) (s.recsOf ids)) (hid : id ∈ ids) :
    Rising (tree.against key) (s.bnode id).recs :=
  (List.pairwise_flatMap.mp hs).left id hid

-- The index records compare like the first records of the nodes that they name.
theorem map_indexRecords (hne : ∀ id ∈ ids, (s.bnode id).recs ≠ []) :
    (s.indexRecords tree ids).map (tree.against key) = (ids.map fun id => (s.bnode id).recs).map
      fun l => (l.head?.map (tree.against key)).getD 0 := by
  induction ids
  case nil => rfl
  case cons id ids ih =>
    obtain ⟨r, rest, hr, hi⟩ := @exists_indexRecord _ _ tree s id (hne id (by simp))
    rw [indexRecords_cons hi, List.map_cons, ih fun i hi => hne i (by simp [hi]), List.map_cons,
      List.map_cons, hr]
    rfl

theorem rising_indexRecords (hne : ∀ id ∈ ids, (s.bnode id).recs ≠ [])
    (hs : Rising (tree.against key) (s.recsOf ids)) :
    Rising (tree.against key) (s.indexRecords tree ids) := by
  have hmap := @map_indexRecords _ _ tree s key _ hne
  rw [recsOf_eq_flatten, Rising, List.pairwise_flatten] at hs
  rw [Rising, ← List.pairwise_map (R := fun a b : Int => (0 < a → 0 < b) ∧ (b < 0 → a < 0)), hmap,
    List.pairwise_map]
  refine hs.right.imp_of_mem fun {l m} hl hm h => ?_
  obtain ⟨i, hi, rfl⟩ := List.mem_map.mp hl
  obtain ⟨j, hj, rfl⟩ := List.mem_map.mp hm
  obtain ⟨r, rest, hr⟩ := List.exists_cons_of_ne_nil (hne i hi)
  obtain ⟨q, rest', hq⟩ := List.exists_cons_of_ne_nil (hne j hj)
  rw [hr, hq] at h ⊢
  exact h r (by simp) q (by simp)

-- The search of a level ends in the node that the level above has led to.
theorem endsAt_recsOf (hne : ∀ i ∈ as ++ id :: bs, (s.bnode i).recs ≠ [])
    (hs : Rising (tree.against key) (s.recsOf (as ++ id :: bs)))
    (hup : EndsAt (tree.against key) (s.indexRecords tree (as ++ id :: bs)) as.length)
    (hpos : EndsAt (tree.against key) (s.bnode id).recs pos) :
    EndsAt (tree.against key) (s.recsOf (as ++ id :: bs)) ((s.recsOf as).length + pos) := by
  have hmap := @map_indexRecords _ _ tree s key _ hne
  rw [← endsAt_map, hmap] at hup
  rw [recsOf_eq_flatten] at hs ⊢
  rw [recsOf_eq_flatten]
  rw [List.map_append, List.map_cons] at hs hup ⊢
  refine EndsAt.flatten (fun l hl => ?_) hs (by rwa [List.length_map]) hpos
  rw [← List.map_cons (f := fun id => (s.bnode id).recs), ← List.map_append] at hl
  obtain ⟨i, hi, rfl⟩ := List.mem_map.mp hl
  obtain ⟨r, rest, hr⟩ := List.exists_cons_of_ne_nil (hne i hi)
  exact ⟨r, by rw [hr]; rfl, by rw [hr]; rfl⟩

theorem getElem?_indexRecords {k : Nat} {r : BtreeRecord κ ν} (hne : ∀ id ∈ ids, (s.bnode id).recs ≠ [])
    (hr : (s.indexRecords tree ids)[k]? = some r) : ids[k]? = some r.nodeId := by
  induction ids generalizing k
  case nil => simp [indexRecords] at hr
  case cons id ids ih =>
    obtain ⟨q, rest, _, hi⟩ := @exists_indexRecord _ _ tree s id (hne id (by simp))
    rw [indexRecords_cons hi] at hr
    cases k
    case zero   => cases hr; rfl
    case succ k => exact ih (fun i hi => hne i (by simp [hi])) hr

-- The record at the place where a path leads to.
theorem PathTo.getElem? (h : s.PathTo (ids :: up) k ((i, pos) :: path)) :
    (s.recsOf ids)[k]? = (s.bnode i).recs[pos]? := by
  obtain ⟨as, id, bs, _, _, rfl, he, hlt, rfl, _⟩ := h
  cases he
  rw [recsOf_append, recsOf_cons, List.getElem?_append_right (Nat.le_add_right ..),
    Nat.add_sub_cancel_left, List.getElem?_append_left hlt]

-- The last step of a search.
theorem SearchPath.last (h : s.SearchPath tree key (n + 1) path) : ∃ id pos path',
    path = (id, pos) :: path' ∧ s.SearchPath tree key n path' ∧
    searchBnode tree (s.bnode id).recs key = some pos ∧
    ((n = 0 ∧ id = s.rootBnodeId) ∨ ∃ i p path'' r, path' = (i, p) :: path'' ∧
      (s.bnode i).recs[p]? = some r ∧ id = r.nodeId) := by
  cases h
  case root _ hs         => exact ⟨_, _, _, rfl, .nil, hs, .inl ⟨rfl, rfl⟩⟩
  case child hr _ hs hp  => exact ⟨_, _, _, rfl, hp, hs, .inr ⟨_, _, _, _, rfl, hr, rfl⟩⟩

-- The node in which a search goes on is the one that the place in the level above names.
theorem PathTo.next (hne : ∀ id ∈ ids, (s.bnode id).recs ≠ [])
    (hl : s.Levels tree .index up (s.indexRecords tree ids)) (hp : s.PathTo up k path)
    (hid : (up.length = 0 ∧ id = s.rootBnodeId) ∨ ∃ i p path' r, path = (i, p) :: path' ∧
      (s.bnode i).recs[p]? = some r ∧ id = r.nodeId) : ids[k]? = some id := by
  cases up
  case nil =>
    obtain ⟨rfl, rfl⟩ := hp
    obtain ⟨r, hr, hroot⟩ := hl
    rcases hid with ⟨_, rfl⟩ | ⟨_, _, _, _, he, _⟩
    · rw [getElem?_indexRecords hne (show (s.indexRecords tree ids)[0]? = some r by rw [hr]; rfl),
        BtreeRecord.nodeId, hroot]
    · cases he
  case cons ids' up =>
    rcases hid with ⟨h, _⟩ | ⟨i, p, path', r, rfl, hr, rfl⟩
    · cases h
    · have hget := hp.getElem?
      rw [hl.left.records, hr] at hget
      exact getElem?_indexRecords hne hget

-- The search over all levels of a tree leads to the place where a search through its records ends.
theorem SearchPath.pathTo (hl : s.Levels tree type levels recs)
    (hs : Rising (tree.against key) recs) (hp : s.SearchPath tree key levels.length path) :
    ∃ k, s.PathTo levels k path ∧ EndsAt (tree.against key) recs k := by
  induction levels generalizing type recs path
  case nil =>
    obtain ⟨r, rfl, _⟩ := hl
    cases hp
    exact ⟨0, ⟨rfl, rfl⟩, endsAt_singleton⟩
  case cons ids up ih =>
    obtain ⟨hlevel, hup⟩ := hl
    have hne (id) (hid : id ∈ ids) : (s.bnode id).recs ≠ [] := (hlevel.fits id hid).nonempty
    rw [← hlevel.records] at hs ⊢
    obtain ⟨id, pos, path', rfl, hp', hpos, hid⟩ := hp.last
    obtain ⟨k, hk, hend⟩ := ih hup (rising_indexRecords hne hs) hp'
    obtain ⟨as, bs, rfl, rfl⟩ := SortedList.exists_append_of_getElem? (hk.next hne hup hid)
    obtain ⟨p, he, hpos'⟩ := searchBnode_spec (rising_node hs (by simp)) (hne id (by simp))
    cases hpos.symm.trans he
    have hx := hpos'.choose_spec.left
    exact ⟨_, ⟨as, id, bs, pos, path', rfl, rfl, (List.getElem?_eq_some_iff.mp hx).fst, rfl, hk⟩,
      endsAt_recsOf hne hs hend hpos'⟩

end Btree

end Descent

section Returns

variable {levels up : List (List Nat)} {path : List (Nat × Nat)} {ids : List Nat} {type : NodeType}

-- The node in which a search goes on can be read.
theorem nextBnode_returns (hc : s.Calm) (hlive : ∀ id ∈ ids, s.Live id)
    (hne : ∀ id ∈ ids, (s.bnode id).recs ≠ [])
    (hl : s.Levels tree .index up (s.indexRecords tree ids)) (hp : s.PathTo up k path) :
    wp (nextBnode tree path) (fun id s' => s' = s ∧ ids[k]? = some id) (fun _ _ => False) False s := by
  cases up
  case nil =>
    have hroot := hp.next hne hl (.inl ⟨rfl, rfl⟩)
    obtain ⟨_, rfl⟩ := hp
    rw [nextBnode, wp_bind, wp_get, wp_bind, wp_getBnode hc (hlive _ (List.mem_of_getElem? hroot))]
    exact ⟨rfl, hroot⟩
  case cons ids' up =>
    obtain ⟨as, i, bs, pos, path', _, rfl, hlt, _⟩ := id hp
    have hr : (s.bnode i).recs[pos]? = some (s.bnode i).recs[pos] := List.getElem?_eq_getElem hlt
    have hnext := hp.next hne hl (.inr ⟨_, _, _, _, rfl, hr, rfl⟩)
    rw [nextBnode, wp_bind, wp_bnodeAt, wp_bind, wp_getRecord hr,
      wp_getChildBnode hc (hlive _ (List.mem_of_getElem? hnext))]
    exact ⟨rfl, hnext⟩

-- The search in a node ends at one of its records.
def BtreeOps.Searchable (tree : BtreeOps κ) (key : κ) (recs : List (BtreeRecord κ ν)) : Prop :=
  ∃ pos < recs.length, searchBnode tree recs key = some pos

theorem searchable_of_rising (hs : Rising (tree.against key) recs) (hne : recs ≠ []) :
    tree.Searchable key recs := by
  obtain ⟨pos, hpos, _, hx, _⟩ := searchBnode_spec hs hne
  exact ⟨pos, (List.getElem?_eq_some_iff.mp hx).choose, hpos⟩

theorem searchable_of_no_match (hm : ∀ r ∈ recs, tree.compFn r.key key ≠ 0) (hne : recs ≠ []) :
    tree.Searchable key recs := by
  have hpos := List.length_pos_iff.mpr hne
  have h₀ : recs[0]? = some recs[0] := List.getElem?_eq_getElem hpos
  have hl : recs[recs.length - 1]? = some recs[recs.length - 1] :=
    List.getElem?_eq_getElem (by omega)
  have hlast := hm _ (List.mem_of_getElem? hl)
  have hfirst := hm _ (List.mem_of_getElem? h₀)
  simp only [BtreeOps.Searchable, searchBnode, h₀, hl]
  split
  case isTrue => exact ⟨_, by omega, rfl⟩
  case isFalse =>
    split
    case isTrue  => exact ⟨0, hpos, if_pos (by omega)⟩
    case isFalse =>
      refine searchLoop_of_no_match hm le_rfl (by omega) nofun fun _ => ⟨hpos, rfl, fun r hr => ?_⟩
      cases h₀.symm.trans hr
      omega

theorem btreeFind_returns (hc : s.Calm) (hl : s.Levels tree type levels recs)
    (hs : ∀ id ∈ levels.flatten, tree.Searchable key (s.bnode id).recs) :
    wp (btreeFind tree key levels.length) (fun path s' => s' = s ∧ ∃ k, s.PathTo levels k path)
      (fun _ _ => False) False s := by
  induction levels generalizing type recs
  case nil => exact ⟨rfl, 0, rfl, rfl⟩
  case cons ids up ih =>
    obtain ⟨hlevel, hup⟩ := hl
    have hne (id) (hid : id ∈ ids) : (s.bnode id).recs ≠ [] := (hlevel.fits id hid).nonempty
    have hs' : ∀ id ∈ up.flatten, tree.Searchable key (s.bnode id).recs :=
      fun id hid => hs id (List.mem_append_right _ hid)
    refine wp_bind.mpr (wp_imp (ih hup hs') ?_)
    rintro path _ ⟨rfl, k, hk⟩
    refine wp_bind.mpr (wp_imp (nextBnode_returns hc hlevel.live hne hup hk) ?_)
    rintro id _ ⟨rfl, hid⟩
    have hmem := List.mem_of_getElem? hid
    obtain ⟨pos, hlt, hpos⟩ := hs id (List.mem_append_left _ hmem)
    obtain ⟨as, bs, rfl, rfl⟩ := SortedList.exists_append_of_getElem? hid
    rw [wp_bind, findInBnode, wp_bind, wp_bnodeAt, if_neg (hne id hmem), hpos]
    exact ⟨rfl, _, as, id, bs, pos, path, rfl, rfl, hlt, rfl, hk⟩

-- In records that rise the search ends in every node.
theorem Btree.Levels.searchable (hl : s.Levels tree type levels recs)
    (hs : Rising (tree.against key) recs) :
    ∀ id ∈ levels.flatten, tree.Searchable key (s.bnode id).recs := by
  induction levels generalizing type recs
  case nil => exact fun _ h => nomatch h
  case cons ids up ih =>
    obtain ⟨hlevel, hup⟩ := hl
    have hne (id) (hid : id ∈ ids) : (s.bnode id).recs ≠ [] := (hlevel.fits id hid).nonempty
    rw [← hlevel.records] at hs
    intro id hid
    cases List.mem_append.mp hid
    case inl hid => exact searchable_of_rising (rising_node hs hid) (hne id hid)
    case inr hid => exact ih hup (rising_indexRecords hne hs) id hid

-- The keys of the index records are keys of the leaves.
theorem Btree.Levels.forall_key {P : κ → Prop} (hl : s.Levels tree type levels recs)
    (h : ∀ r ∈ recs, P r.key) : ∀ id ∈ levels.flatten, ∀ r ∈ (s.bnode id).recs, P r.key := by
  induction levels generalizing type recs
  case nil => exact fun _ h => nomatch h
  case cons ids up ih =>
    obtain ⟨hlevel, hup⟩ := hl
    have hkeys (id) (hid : id ∈ ids) (r) (hr : r ∈ (s.bnode id).recs) : P r.key :=
      h r (hlevel.records ▸ List.mem_flatMap.mpr ⟨id, hid, hr⟩)
    intro id hid
    cases List.mem_append.mp hid
    case inl hid => exact hkeys id hid
    case inr hid =>
      refine ih hup (fun r hr => ?_) id hid
      obtain ⟨i, hi, he⟩ := List.mem_filterMap.mp hr
      obtain ⟨q, hq, hr⟩ := Option.map_eq_some_iff.mp he
      exact hr ▸ hkeys i hi q (List.mem_of_head? hq)

-- The search of all levels ends at a record of a leaf.
theorem emmcfsBtreeFind_leaf {leaves : List Nat} (hu : s.Upper tree 1 (leaves :: up) recs) (hc : s.Calm)
    (hs : ∀ id ∈ (leaves :: up).flatten, tree.Searchable key (s.bnode id).recs) :
    wp (emmcfsBtreeFind tree key)
      (fun p s' => s' = s ∧ p.1 ∈ leaves ∧ p.2 < (s.bnode p.1).recs.length) (fun _ _ => False) False s := by
  have hheight : s.btreeHeight + 1 - 1 = (leaves :: up).length := by
    have := hu.height
    omega
  rw [emmcfsBtreeFind, wp_bind, btreeFindLevel, wp_bind, wp_get, wp_bind, hheight]
  refine wp_imp (btreeFind_returns hc hu.shape hs) ?_
  rintro path _ ⟨rfl, k, as, id, bs, pos, path', rfl, rfl, hlt, _⟩
  exact ⟨rfl, by simp, hlt⟩

end Returns

-- Where a search in a tree ends: a record of a leaf, with its place among all records.
structure Btree.Found (tree : BtreeOps κ) (s : Btree κ ν) (levels : List (List Nat))
    (recs : List (BtreeRecord κ ν)) (key : κ) (k id pos : Nat) (path : List (Nat × Nat)) : Prop where
  path : s.PathTo levels k ((id, pos) :: path)
  ends : EndsAt (tree.against key) recs k
  node : recs[k]? = (s.bnode id).recs[pos]?

section FindLevel

variable {ids : List Nat} {up : List (List Nat)} (hu : s.Upper tree level (ids :: up) recs)
  (hs : Rising (tree.against key) recs)

include hu hs

theorem btreeFindLevel_found : wp (btreeFindLevel tree key level)
    (fun p s' => s.Requested s' ∧ ∃ k, s.Found tree (ids :: up) recs key k p.1.1 p.1.2 p.2)
    (fun _ s' => s.Unchanged s') True s := by
  refine wp_imp btreeFindLevel_spec (fun p s' ⟨hr, hp⟩ => ⟨hr, ?_⟩)
  have hheight : s.btreeHeight + 1 - level = (ids :: up).length := by
    have := hu.height
    omega
  obtain ⟨k, hk, hend⟩ := (hheight ▸ hp).pathTo hu.shape hs
  exact ⟨k, hk, hend, hu.shape.left.records ▸ hk.getElem?⟩

theorem btreeFindLevel_returns (hc : s.Calm) : wp (btreeFindLevel tree key level)
    (fun p s' => s' = s ∧ ∃ k, s.Found tree (ids :: up) recs key k p.1.1 p.1.2 p.2)
    (fun _ _ => False) False s := by
  have hheight : s.btreeHeight + 1 - level = (ids :: up).length := by
    have := hu.height
    omega
  have hreturns : wp (btreeFindLevel tree key level) (fun _ s' => s' = s) (fun _ _ => False) False s := by
    rw [btreeFindLevel, wp_bind, wp_get, wp_bind, hheight]
    refine wp_mono (wp_and (btreeFind_returns hc hu.shape (hu.shape.searchable hs)) btreeFind_spec) ?_
      (fun _ _ h => h.left) And.left
    rintro path _ ⟨⟨rfl, -⟩, -, hp⟩
    obtain ⟨id, pos, path', rfl, _⟩ := hp.last
    rfl
  exact wp_mono (wp_and hreturns (btreeFindLevel_found hu hs)) (fun _ _ h => ⟨h.left, h.right.right⟩)
    (fun _ _ h => h.left) And.left

end FindLevel

section Find

variable {leaves : List Nat} {up : List (List Nat)} (hu : s.Upper tree 1 (leaves :: up) recs)
  (hs : Rising (tree.against key) recs)

include hu hs

theorem emmcfsBtreeFind_found : wp (emmcfsBtreeFind tree key)
    (fun p s' => s.Unchanged s' ∧ ∃ k path, s.Found tree (leaves :: up) recs key k p.1 p.2 path)
    (fun _ s' => s.Unchanged s') True s := by
  refine wp_bind.mpr (wp_imp (btreeFindLevel_found hu hs) ?_)
  exact fun ⟨_, path⟩ s' ⟨hr, k, hf⟩ => ⟨hr.unchanged, k, path, hf⟩

theorem emmcfsBtreeFind_returns (hc : s.Calm) : ∃ id pos, emmcfsBtreeFind tree key s = .ok (id, pos) s ∧
    ∃ k path, s.Found tree (leaves :: up) recs key k id pos path := by
  have hw : wp (emmcfsBtreeFind tree key)
      (fun p s' => s' = s ∧ ∃ k path, s.Found tree (leaves :: up) recs key k p.1 p.2 path)
      (fun _ _ => False) False s :=
    wp_bind.mpr (wp_imp (btreeFindLevel_returns hu hs hc)
      (fun ⟨_, path⟩ s' ⟨he, k, hf⟩ => ⟨he, k, path, hf⟩))
  obtain ⟨⟨id, pos⟩, _, hok, rfl, h⟩ := wp_returns hw
  exact ⟨id, pos, hok, h⟩

end Find

end Emmcfs
