import EmmcfsModel.Extents.Cover
import EmmcfsModel.Lib.Outcomes
import EmmcfsModel.Extents.Theorems.Search
import EmmcfsModel.Fsm.Theorems.Space

namespace Emmcfs

open Code

namespace ExtentInfo

variable {e : ExtentInfo}

-- The first blocks of an extent.
theorem firstBlock_of (e : ExtentInfo) (m : Nat) : (of e.firstBlock m).firstBlock = e.firstBlock :=
  Nat.mod_eq_of_lt e.first_lt

theorem blockCount_of (h : m < e.blockCount) : (of e.firstBlock m).blockCount = m :=
  u32_of_lt (h.trans e.count_lt)

-- What truncation computes for the two parts of an extent.
theorem OnVolume.parts (h : e.OnVolume bytes) (hb : bytes ≤ 2 ^ 29) (hlt : m < e.blockCount) :
    u64Sub (u64 (e.firstBlock + e.blockCount)) (e.blockCount - m) = e.firstBlock + m ∧
    u32Sub e.blockCount (e.blockCount - m) = m := by
  have := h.inside
  rw [u64_of_lt (by omega), u64Sub_of_le (by omega) (by omega), u32Sub_of_le (by omega) e.count_lt]
  omega

theorem OnVolume.of_lt (h : e.OnVolume bytes) (hm : 0 < m) (hlt : m < e.blockCount) :
    (of e.firstBlock m).OnVolume bytes := by
  have := h.inside
  refine ⟨?_, ?_, ?_⟩ <;> simp only [firstBlock_of, blockCount_of hlt]
  · exact h.first_pos
  · exact hm
  · omega

end ExtentInfo

section Extents

variable {es es' : List ExtentInfo}

@[simp]
theorem blockList_nil : blockList [] = [] := rfl

@[simp]
theorem blockList_cons :
    blockList (e :: es) = List.range' e.firstBlock e.blockCount ++ blockList es := rfl

@[simp]
theorem blockList_append : blockList (es ++ es') = blockList es ++ blockList es' :=
  List.flatMap_append

@[simp]
theorem countBlocks_nil : countBlocks [] = 0 := rfl

@[simp]
theorem countBlocks_cons : countBlocks (e :: es) = e.blockCount + countBlocks es := by
  simp [countBlocks]

@[simp]
theorem countBlocks_append : countBlocks (es ++ es') = countBlocks es + countBlocks es' := by
  simp [countBlocks]

@[simp]
theorem length_blockList : (blockList es).length = countBlocks es := by
  induction es <;> simp_all

theorem eq_nil_of_countBlocks (h : ∀ e ∈ es, e.OnVolume bytes) (hc : countBlocks es = 0) : es = [] := by
  cases es
  case nil       => rfl
  case cons e es =>
    have := (h e (by simp)).count_pos
    simp only [countBlocks_cons] at hc
    omega

@[simp]
theorem recordsFrom_append : recordsFrom ino start (es ++ es') =
    recordsFrom ino start es ++ recordsFrom ino (start + countBlocks es) es' := by
  induction es generalizing start <;> simp_all [recordsFrom, Nat.add_assoc]

theorem mem_recordsFrom (h : r ∈ recordsFrom ino start es) : ∃ before e behind,
    es = before ++ e :: behind ∧ r = ⟨⟨ino, start + countBlocks before⟩, some e⟩ := by
  induction es generalizing start
  case nil          => cases h
  case cons e es ih =>
    rcases List.mem_cons.mp h with rfl | h
    · exact ⟨[], e, es, rfl, rfl⟩
    · obtain ⟨before, e', behind, he, hr⟩ := ih h
      exact ⟨e :: before, e', behind, by rw [he]; rfl, by simp [hr, Nat.add_assoc]⟩

-- The extent with a block.
theorem exists_extent (h : i < countBlocks es) : ∃ before e behind, es = before ++ e :: behind ∧
    countBlocks before ≤ i ∧ i < countBlocks before + e.blockCount := by
  induction es generalizing i
  case nil          => cases h
  case cons e es ih =>
    by_cases hi : i < e.blockCount
    case pos => exact ⟨[], e, es, rfl, Nat.zero_le _, by simpa using hi⟩
    case neg =>
      rw [countBlocks_cons] at h
      obtain ⟨before, e', behind, he, hle, hlt⟩ := ih (i := i - e.blockCount) (by omega)
      refine ⟨e :: before, e', behind, by rw [he]; rfl, ?_, ?_⟩ <;> rw [countBlocks_cons] <;> omega

theorem getElem?_blockList (hle : countBlocks es ≤ i) (hlt : i < countBlocks es + e.blockCount) :
    (blockList (es ++ e :: es'))[i]? = some (e.firstBlock + (i - countBlocks es)) := by
  have hin : i - countBlocks es < e.blockCount := by omega
  rw [blockList_append, List.getElem?_append_right (by simpa using hle), length_blockList,
    blockList_cons, List.getElem?_append_left (by simpa using hin), List.getElem?_range' hin,
    Nat.one_mul]

-- The blocks before and behind a cut, which lies before the last extent or inside of it.
section Cut

theorem onVolume_cut (h : ∀ e' ∈ es ++ [e], e'.OnVolume bytes) (hm : 0 < m) (hlt : m < e.blockCount) :
    ∀ e' ∈ es ++ [.of e.firstBlock m], e'.OnVolume bytes := by
  intro e' he
  rcases List.mem_append.mp he with he | he
  · exact h e' (by simp [he])
  · exact List.mem_singleton.mp he ▸ (h e (by simp)).of_lt hm hlt

theorem take_blockList (h : i ≤ countBlocks es) :
    (blockList (es ++ [e])).take i = (blockList es).take i := by
  rw [blockList_append, List.take_append_of_le_length (by simpa using h)]

theorem drop_blockList (h : i ≤ countBlocks es) : (blockList (es ++ [e])).drop i =
    (blockList es).drop i ++ List.range' e.firstBlock e.blockCount := by
  rw [blockList_append, List.drop_append_of_le_length (by simpa using h), blockList_cons, blockList_nil,
    List.append_nil]

theorem take_blockList_add (h : m < e.blockCount) :
    (blockList (es ++ [e])).take (countBlocks es + m) = blockList (es ++ [.of e.firstBlock m]) := by
  rw [← length_blockList, blockList_append, List.take_length_add_append, blockList_cons, blockList_nil,
    List.append_nil, List.take_range'_of_length_ge h.le, blockList_append, blockList_cons, blockList_nil,
    List.append_nil, ExtentInfo.firstBlock_of, ExtentInfo.blockCount_of h]

theorem drop_blockList_add : (blockList (es ++ [e])).drop (countBlocks es + m) =
    List.range' (e.firstBlock + m) (e.blockCount - m) := by
  rw [← length_blockList, blockList_append, List.drop_length_add_append, blockList_cons, blockList_nil,
    List.append_nil, List.drop_range', Nat.mul_one]

end Cut

end Extents

namespace Expansion

variable {s : Expansion} {fs es es' : List ExtentInfo}

section Requests

theorem next_eq (h : s.outcomes = []) : s.next = s := by
  cases s
  cases h
  rfl

theorem request_ok (h : s.outcomes.head?.join = none) : request s = .ok () s.next := by
  match ho : s.outcomes with
  | []          => simp [request, next_eq ho, ho]
  | none :: _   => simp [request, next, ho]
  | some e :: _ => simp [ho] at h

theorem request_fail (h : s.outcomes.head?.join = some e) : request s = .fail e s.next := by
  match ho : s.outcomes with
  | []          => simp [ho] at h
  | none :: _   => simp [ho] at h
  | some e :: _ => simp_all [request, next]

theorem served_zero : s.Served 0 :=
  Outcomes.served_zero

theorem served_succ : s.Served (k + 1) ↔ s.outcomes.head?.join = none ∧ s.next.Served k :=
  Outcomes.served_succ

theorem served_add_two : s.Served (k + 2) ↔ s.Served 2 ∧ s.next.next.Served k := by
  simp only [served_succ, served_zero, and_true, and_assoc]

theorem extentFind_fail (hr : s.outcomes.head?.join = some e) :
    extentFind ino iblock s = .fail e s.next := by
  change Code.bind request _ s = _
  rw [Code.bind, request_fail hr]

-- The search ends at the last record that is not above the key.
theorem extentFind_ok (hr : s.outcomes.head?.join = none) (hs : s.exttree = before ++ r :: behind)
    (hle : exttreeCmpfn r.key ⟨ino, iblock⟩ ≤ 0)
    (hb : ∀ q ∈ behind, 0 < exttreeCmpfn q.key ⟨ino, iblock⟩) :
    extentFind ino iblock s = .ok r s.next := by
  have hn : (behind.filter fun r => exttreeCmpfn r.key ⟨ino, iblock⟩ ≤ 0) = [] := by
    simpa [List.filter_eq_nil_iff] using hb
  have hs : s.next.exttree = before ++ r :: behind := hs
  rw [extentFind, bind_of_ok (request_ok hr), get_bind, hs]
  simp [List.filter_append, hle, hn]

end Requests

-- The record of an extent in the tree.
theorem CoveredBy.exists_split (h : s.CoveredBy ino fs (es ++ e :: es')) : ∃ before behind,
    s.exttree = before ++ ⟨⟨ino, countBlocks fs + countBlocks es⟩, some e⟩ :: behind ∧
    before.filter (·.key.objectId = ino) = recordsFrom ino (countBlocks fs) es ∧
    behind.filter (·.key.objectId = ino) =
      recordsFrom ino (countBlocks fs + countBlocks es + e.blockCount) es' := by
  have hrec := h.records
  rw [recordsFrom_append, recordsFrom] at hrec
  obtain ⟨l, l', hl, hbefore, hl'⟩ := List.filter_eq_append_iff.mp hrec
  obtain ⟨m, behind, hm, hnot, _, hbehind⟩ := List.filter_eq_cons_iff.mp hl'
  have hm' : m.filter (·.key.objectId = ino) = [] := List.filter_eq_nil_iff.mpr hnot
  exact ⟨l ++ m, behind, by rw [hl, hm, List.append_assoc], by simp [hbefore, hm'], hbehind⟩

-- It is the one that a search for a block of the extent finds. With the last extent it may be any
-- block behind too.
theorem CoveredBy.extentFind_eq (h : s.CoveredBy ino fs (es ++ e :: es'))
    (ht : t.exttree = s.exttree) (hr : t.outcomes.head?.join = none)
    (hne : iblock ≠ iblockDoesNotMatter) (hle : countBlocks fs + countBlocks es ≤ iblock)
    (hlt : es' = [] ∨ iblock < countBlocks fs + countBlocks es + e.blockCount) :
    extentFind ino iblock t =
      .ok ⟨⟨ino, countBlocks fs + countBlocks es⟩, some e⟩ t.next := by
  obtain ⟨before, behind, hs, _, hown⟩ := h.exists_split
  have hsorted := h.sorted
  rw [hs, List.pairwise_append, List.pairwise_cons] at hsorted
  refine extentFind_ok hr (ht.trans hs) (Int.not_lt.mp fun hlt => ?_) fun q hq => ?_
  · have := exttreeCmpfn_pos_iff.mp hlt
    simp only at this
    omega
  · have hq' := exttreeCmpfn_neg_iff.mp (hsorted.right.left.left q hq)
    rw [exttreeCmpfn_pos_iff]
    by_cases he : q.key.objectId = ino
    case neg =>
      simp only at hq' ⊢
      omega
    case pos =>
      -- a record of the file behind it is for a later extent
      have hmem : q ∈ behind.filter (·.key.objectId = ino) := List.mem_filter.mpr ⟨hq, by simp [he]⟩
      rw [hown] at hmem
      rcases hlt with rfl | hlt
      · cases hmem
      · obtain ⟨_, _, _, _, hq⟩ := mem_recordsFrom hmem
        rw [hq]
        exact .inr ⟨rfl, hne, by simp only; omega⟩

-- Without a record of the file the search ends at one of another file, or at none.
theorem CoveredBy.extentFind_nil (h : s.CoveredBy ino fs []) (hr : s.outcomes.head?.join = none) :
    (extentFind ino iblock).wp (fun r s' => r.key.objectId ≠ ino ∧ s' = s.next)
      (fun _ s' => s' = s.next) False s := by
  have hall : ∀ r ∈ s.exttree, r.key.objectId ≠ ino := by
    simpa [recordsOf, recordsFrom, List.filter_eq_nil_iff] using h.records
  rw [extentFind, wp_bind, wp_of_ok (request_ok hr), wp_bind, wp_get]
  split
  case h_1 r hl =>
    have := List.mem_of_getLast? hl
    exact ⟨hall r (List.mem_of_mem_filter this), rfl⟩
  case h_2 r _ _ hl => exact ⟨hall r (show r ∈ s.next.exttree by simp [hl]), rfl⟩
  case h_3 => exact rfl

section Blocks

variable {fork : ForkInfo}

theorem getElem?_inUse (h : i < fork.usedExtents) : fork.inUse[i]? = fork.extents[i]? := by
  rw [ForkInfo.inUse, List.getElem?_take_of_lt h, Vector.getElem?_toList]

-- The loop of emmcfs_find_old_block looks the block up in the extents that are left.
theorem findInFork_eq (hb : bytes ≤ 2 ^ 29) (hv : ∀ e ∈ fork.inUse, e.OnVolume bytes)
    (hl : left ≤ fork.usedExtents) : findInFork fork iblock left =
      (blockList (fork.inUse.drop (fork.usedExtents - left)))[iblock]? := by
  induction left generalizing iblock
  case zero => simp [findInFork, ForkInfo.inUse]
  case succ left ih =>
    rw [findInFork, ← getElem?_inUse (by omega)]
    cases he : fork.inUse[fork.usedExtents - (left + 1)]?
    case none =>
      rw [List.drop_eq_nil_of_le (List.getElem?_eq_none_iff.mp he)]
      rfl
    case some e =>
      obtain ⟨hi, he⟩ := List.getElem?_eq_some_iff.mp he
      have hin := (hv e (he ▸ List.getElem_mem hi)).inside
      rw [List.drop_eq_getElem_cons hi, he, blockList_cons,
        show fork.usedExtents - (left + 1) + 1 = fork.usedExtents - left by omega]
      simp only
      split
      case isTrue hlt =>
        rw [List.getElem?_append_left (by simpa using hlt), List.getElem?_range' hlt, Nat.one_mul,
          u64_of_lt (by omega)]
      case isFalse hge =>
        rw [List.getElem?_append_right (by simpa using hge), List.length_range', ih (by omega)]

end Blocks

-- emmcfs_find_old_block finds the blocks of a file in their order.
theorem CoveredBy.oldBlock (h : s.CoveredBy ino fs es) (hb : s.fsm.lengthInBytes ≤ 2 ^ 29)
    (hi : (blockList (fs ++ es))[i]? = some block) : s.OldBlock ino i block := by
  have hlen := (List.getElem?_eq_some_iff.mp hi).choose
  have htotal := h.total
  have hlt := (s.forks ino).total_lt
  simp only [length_blockList, countBlocks_append] at hlen
  rw [OldBlock, findOldBlock, get_bind]
  simp only [findInFork_eq hb (h.fork ▸ h.volume) (le_refl _), Nat.sub_self, List.drop_zero, h.fork]
  by_cases hf : i < countBlocks fs
  case pos =>
    rw [blockList_append, List.getElem?_append_left (by simpa using hf)] at hi
    rw [hi]
    rfl
  case neg =>
    rw [List.getElem?_eq_none (by simpa using hf)]
    obtain ⟨before, e, behind, rfl, hle, hlt'⟩ := exists_extent (show i - countBlocks fs < countBlocks es by omega)
    have hne : i ≠ iblockDoesNotMatter := by
      rw [iblockDoesNotMatter]
      omega
    have hfind := h.extentFind_eq (t := { s with outcomes := [] }) rfl rfl hne (by omega)
      (.inr (by omega))
    have hin := (h.overflow e (by simp)).inside
    have hcount : countBlocks (fs ++ before) = countBlocks fs + countBlocks before :=
      countBlocks_append
    rw [← List.append_assoc, getElem?_blockList (by omega) (by omega), hcount] at hi
    cases hi
    simp only [exttreeGetBlock, onFail, bind_of_ok hfind, if_true, pure_apply, Option.map_some]
    rw [next_eq rfl, u64Sub_of_le (by omega) (by omega), u64_of_lt (by omega)]

end Expansion

end Emmcfs
