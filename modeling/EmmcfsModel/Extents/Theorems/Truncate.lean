import EmmcfsModel.Extents.Truncate
import EmmcfsModel.Extents.Theorems.Cover

namespace Emmcfs.Expansion

open Code

-- What a round of truncate_exttree does with the extents in the tree. It ends the loop when it does
-- not find the last of them, when nothing lies behind the new end, and when it has cut the last one.
inductive Round (ino n : Nat) (fs es : List ExtentInfo) (s : Expansion) :
    Option Unit → Expansion → Prop
  | missed : s.outcomes.head?.join ≠ none → Round ino n fs es s (some ()) s.next
  | ended : es = [] ∨ countBlocks fs + countBlocks es ≤ n → Round ino n fs es s (some ()) s.next
  | cut : s.outcomes.head?.join = none → es = init ++ [e] → 0 < m → m < e.blockCount →
    n = countBlocks fs + countBlocks init + m →
    s'.CoveredBy ino fs (init ++ [.of e.firstBlock m]) →
    s.fsm.Freed (List.range' (e.firstBlock + m) (e.blockCount - m)) s'.fsm →
    Round ino n fs es s (some ()) s'
  | drop : s.Served 2 → es = init ++ [e] → n ≤ countBlocks fs + countBlocks init →
    s'.CoveredBy ino fs init → s'.outcomes = s.next.next.outcomes →
    s.fsm.Freed (List.range' e.firstBlock e.blockCount) s'.fsm → Round ino n fs es s none s'
  -- the record is still there
  | stuck : ¬s.Served 2 → es = init ++ [e] → n ≤ countBlocks fs + countBlocks init →
    s'.exttree = s.exttree → s.fsm.Freed (List.range' e.firstBlock e.blockCount) s'.fsm →
    Round ino n fs es s none s'

-- The tree has kept the blocks of the file before the logical block `n`, and those behind are free.
def Trimmed (ino n : Nat) (fs es : List ExtentInfo) (s s' : Expansion) : Prop :=
  ∃ es', s'.CoveredBy ino fs es' ∧ blockList es' = (blockList es).take (n - countBlocks fs) ∧
    s.fsm.Freed ((blockList es).drop (n - countBlocks fs)) s'.fsm

-- A record of the file is left that ends behind the logical block `n`.
def Overlooked (ino n : Nat) (s : Expansion) : Prop :=
  ∃ r ∈ s.exttree, r.key.objectId = ino ∧
    n < r.key.iblock + r.lextent.elim 0 (·.blockCount)

variable {s s' : Expansion} {fs es : List ExtentInfo}

section Steps

theorem putFreeBlock_freed (hsm : s.fsm.Small) (hpos : 0 < start) (hlen : 0 < len)
    (hin : start + len ≤ 8 * s.fsm.lengthInBytes) :
    (onFsm (fsmPutFreeBlock start len)).wp
      (fun _ s' => ∃ fsm', s.fsm.Freed (List.range' start len) fsm' ∧ s' = { s with fsm := fsm' })
      (fun _ _ => True) True s := by
  rw [onFsm, wp_zoom]
  exact wp_mono (fsmFreeBlockChunk_freed hsm hpos hlen hin) (fun _ fsm' h => ⟨fsm', h, rfl⟩)
    (fun _ _ _ => trivial) fun _ => trivial

theorem exttreeRemove_fail (hr : s.outcomes.head?.join = some e) :
    exttreeRemove key s = .fail e s.next := by
  change Code.bind request _ s = _
  rw [Code.bind, request_fail hr]

-- The record with the key goes.
theorem exttreeRemove_ok (hr : s.outcomes.head?.join = none)
    (hs : s.exttree = before ++ r :: behind)
    (hsorted : s.exttree.Pairwise fun q r => exttreeCmpfn q.key r.key < 0) :
    exttreeRemove r.key s = .ok () { s.next with exttree := before ++ behind } := by
  have heq : exttreeCmpfn r.key r.key = 0 := exttreeCmpfn_zero_iff.mpr ⟨rfl, .inr rfl⟩
  rw [hs, List.pairwise_append] at hsorted
  have hbefore : ∀ q ∈ before, ¬decide (exttreeCmpfn q.key r.key = 0) := fun q hq => by
    have := hsorted.right.right q hq r (by simp)
    simp only [decide_eq_true_eq]
    omega
  have hs' : s.next.exttree = before ++ r :: behind := hs
  rw [exttreeRemove, bind_of_ok (request_ok hr), get_bind, hs', if_pos (by simp [heq]), modify_apply,
    hs', List.eraseP_append_right _ hbefore, List.eraseP_cons_of_pos (by simp [heq])]

theorem usedExtents_shortenTotal :
    ((s.shortenTotal ino n).forks ino).usedExtents = (s.forks ino).usedExtents := by
  simp [shortenTotal]

theorem inUse_shortenTotal :
    ((s.shortenTotal ino n).forks ino).inUse = (s.forks ino).inUse := by
  simp [shortenTotal, ForkInfo.inUse]

theorem total_shortenTotal : ((s.shortenTotal ino n).forks ino).totalBlockCount =
    u32Sub (s.forks ino).totalBlockCount n := by
  simp [shortenTotal]

-- The file has lost `n` blocks of the extents tree, and `es'` is left of its extents there.
theorem CoveredBy.of_shortenTotal (h : s.CoveredBy ino fs es) (hsize : s.fsm.SameSize s'.fsm)
    (hforks : s'.forks = (s.shortenTotal ino n).forks)
    (hrec : s'.recordsOf ino = recordsFrom ino (countBlocks fs) es')
    (hsorted : s'.exttree.Pairwise fun q r => exttreeCmpfn q.key r.key < 0)
    (hes : ∀ e ∈ es', e.OnVolume s.fsm.lengthInBytes)
    (hcount : countBlocks es = countBlocks es' + n) : s'.CoveredBy ino fs es' := by
  have hlt := (s.forks ino).total_lt
  have htotal := h.total
  refine ⟨⟨?_, ?_, ?_, ?_⟩, hrec, ?_, hsorted⟩
  · rw [hforks, usedExtents_shortenTotal]
    exact h.used
  · rw [hforks, inUse_shortenTotal]
    exact h.fork
  · rw [hforks, total_shortenTotal, u32Sub_of_le (by omega) hlt]
    omega
  · simpa [hsize.bytes] using h.volume
  · simpa [hsize.bytes] using hes

-- A record that starts at or behind the new end: its blocks become free. It goes only if it can be
-- removed.
theorem truncateRecord_drop (h : s.CoveredBy ino fs (es ++ [e])) (hsm : s.fsm.Small)
    (hn : n ≤ countBlocks fs + countBlocks es) :
    (truncateRecord ino n ⟨⟨ino, countBlocks fs + countBlocks es⟩, some e⟩).wp
      (fun r s' => r = none ∧ s.fsm.Freed (List.range' e.firstBlock e.blockCount) s'.fsm ∧
        if s.outcomes.head?.join = none then
          s'.CoveredBy ino fs es ∧ s'.outcomes = s.outcomes.tail
        else s'.exttree = s.exttree)
      (fun _ _ => True) True s := by
  have hv := h.overflow e (by simp)
  obtain ⟨before, behind, hs, hbefore, hbehind⟩ := h.exists_split
  simp only [truncateRecord, hn, if_true, wp_bind]
  refine wp_imp (putFreeBlock_freed hsm hv.first_pos hv.count_pos hv.inside) ?_
  rintro _ _ ⟨fsm', hf, rfl⟩
  simp only [wp_bind, wp_modify, wp_onFail]
  cases hr : s.outcomes.head?.join
  case some err =>
    have hremove : exttreeRemove ⟨ino, countBlocks fs + countBlocks es⟩ _ = _ :=
      exttreeRemove_fail (s := shortenTotal ino e.blockCount { s with fsm := fsm' }) hr
    rw [wp_of_fail hremove]
    exact ⟨rfl, hf, by simp [next, shortenTotal]⟩
  case none =>
    have hremove := exttreeRemove_ok (s := shortenTotal ino e.blockCount { s with fsm := fsm' })
      hr hs h.sorted
    rw [wp_of_ok hremove]
    refine ⟨rfl, hf, ?_⟩
    rw [if_pos rfl]
    refine ⟨h.of_shortenTotal (n := e.blockCount) hf.size rfl ?_ ?_ ?_ ?_, rfl⟩
    · simp [recordsOf, List.filter_append, hbefore, hbehind, recordsFrom]
    · exact (hs ▸ h.sorted).sublist (by simp)
    · exact fun e' he' => h.overflow e' (by simp [he'])
    · simp

-- A record is replaced by one with its key.
theorem map_replace {r : ExttreeRecord} {f : ExttreeRecord → ExttreeRecord}
    (h : (before ++ r :: behind).Pairwise fun q r => exttreeCmpfn q.key r.key < 0) :
    ((before ++ r :: behind).map fun q => if q = r then f q else q) = before ++ f r :: behind := by
  have heq : exttreeCmpfn r.key r.key = 0 := exttreeCmpfn_zero_iff.mpr ⟨rfl, .inr rfl⟩
  rw [List.pairwise_append, List.pairwise_cons] at h
  have hbefore : ∀ q ∈ before, q ≠ r := by
    rintro q hq rfl
    have := h.right.right q hq q (by simp)
    omega
  have hbehind : ∀ q ∈ behind, q ≠ r := by
    rintro q hq rfl
    have := h.right.left.left q hq
    omega
  have hsame (l : List ExttreeRecord) (hl : ∀ q ∈ l, q ≠ r) :
      (l.map fun q => if q = r then f q else q) = l :=
    (List.map_congr_left fun q hq => if_neg (hl q hq)).trans (List.map_id' l)
  rw [List.map_append, List.map_cons, if_pos rfl, hsame before hbefore, hsame behind hbehind]

-- A record with the new end inside of it: the blocks behind the end become free.
theorem truncateRecord_cut (h : s.CoveredBy ino fs (es ++ [e])) (hsm : s.fsm.Small)
    (hm : 0 < m) (hlt : m < e.blockCount) :
    (truncateRecord ino (countBlocks fs + countBlocks es + m)
      ⟨⟨ino, countBlocks fs + countBlocks es⟩, some e⟩).wp
      (fun r s' => r = some () ∧ s'.CoveredBy ino fs (es ++ [.of e.firstBlock m]) ∧
        s.fsm.Freed (List.range' (e.firstBlock + m) (e.blockCount - m)) s'.fsm)
      (fun _ _ => True) True s := by
  have hv := h.overflow e (by simp)
  have hin := hv.inside
  have hb := hsm.bytes
  have htotal := h.total
  have hlong := (s.forks ino).total_lt
  rw [countBlocks_append, countBlocks_cons, countBlocks_nil, Nat.add_zero] at htotal
  obtain ⟨before, behind, hs, hbefore, hbehind⟩ := h.exists_split
  have hend : u64 (countBlocks fs + countBlocks es + e.blockCount) =
      countBlocks fs + countBlocks es + e.blockCount := u64_of_lt (by omega)
  have hdelta : u64Sub (countBlocks fs + countBlocks es + e.blockCount)
      (countBlocks fs + countBlocks es + m) = e.blockCount - m := by
    rw [u64Sub_of_le (by omega) (by omega)]
    omega
  obtain ⟨hstart, hlen⟩ := hv.parts hb hlt
  have hne : ¬countBlocks fs + countBlocks es + m ≤ countBlocks fs + countBlocks es := by omega
  have hcut : countBlocks fs + countBlocks es + m < countBlocks fs + countBlocks es + e.blockCount := by
    omega
  simp only [truncateRecord, hend, hdelta, hstart, hlen, hne, hcut, if_false, if_true, wp_bind,
    u32_of_lt (show e.blockCount - m < 2 ^ 32 by omega)]
  refine wp_imp (putFreeBlock_freed hsm (by omega) (by omega) (by omega)) ?_
  rintro _ _ ⟨fsm', hf, rfl⟩
  have hsorted := h.sorted
  rw [hs] at hsorted
  have hmap := map_replace (f := fun r => { r with lextent := some (.of e.firstBlock m) }) hsorted
  rw [← hs] at hmap
  refine ⟨rfl, h.of_shortenTotal hf.size rfl ?_ ?_ ?_ ?_, hf⟩
  · change List.filter _ (s.exttree.map _) = _
    rw [hmap]
    simp [List.filter_append, hbefore, hbehind, recordsFrom]
  · change List.Pairwise _ (s.exttree.map _)
    rw [hmap, ← List.pairwise_map (f := ExttreeRecord.key) (R := fun q r => exttreeCmpfn q r < 0)]
    rw [← List.pairwise_map (f := ExttreeRecord.key) (R := fun q r => exttreeCmpfn q r < 0)] at hsorted
    simpa using hsorted
  · exact onVolume_cut h.overflow hm hlt
  · simp only [countBlocks_append, countBlocks_cons, countBlocks_nil, ExtentInfo.blockCount_of hlt]
    omega

end Steps

section Rounds

-- IBLOCK_MAX_NUMBER is not below the last record.
theorem CoveredBy.lastIblock_le (h : s.CoveredBy ino fs (es ++ [e])) :
    countBlocks fs + countBlocks es ≤ iblockMaxNumber := by
  have hpos := (h.overflow e (by simp)).count_pos
  have htotal := h.total
  have hlong := (s.forks ino).total_lt
  rw [countBlocks_append, countBlocks_cons, countBlocks_nil, Nat.add_zero] at htotal
  rw [iblockMaxNumber]
  omega

theorem CoveredBy.next (h : s.CoveredBy ino fs es) : s.next.CoveredBy ino fs es :=
  ⟨⟨h.used, h.fork, h.total, h.volume⟩, h.records, h.overflow, h.sorted⟩

theorem truncateRound_spec (h : s.CoveredBy ino fs es) (hsm : s.fsm.Small) :
    (truncateRound ino n).wp (Round ino n fs es s) (fun _ _ => True) True s := by
  have htotal := h.total
  have hlong := (s.forks ino).total_lt
  refine wp_bind.mpr (wp_onFail.mpr (wp_bind.mpr ?_))
  cases hr : s.outcomes.head?.join
  case some err =>
    rw [wp_of_fail (extentFind_fail hr)]
    exact .missed (by simp [hr])
  case none =>
    rcases List.eq_nil_or_concat' es with rfl | ⟨es, e, rfl⟩
    case inl =>
      refine wp_mono (h.extentFind_nil hr) ?_ ?_ False.elim
      · rintro r _ ⟨hne, rfl⟩
        simp only [wp_pure, hne, ne_eq, not_false_eq_true, if_true]
        exact .ended (.inl rfl)
      · rintro _ _ rfl
        exact .ended (.inl rfl)
    case inr =>
      rw [countBlocks_append, countBlocks_cons, countBlocks_nil, Nat.add_zero] at htotal
      rw [wp_of_ok (h.extentFind_eq rfl hr (by decide) h.lastIblock_le (.inl rfl))]
      simp only [wp_pure, ne_eq, not_true_eq_false, if_false]
      by_cases hn : n ≤ countBlocks fs + countBlocks es
      case pos =>
        refine wp_imp (truncateRecord_drop h.next hsm hn) ?_
        rintro _ s' ⟨rfl, hf, hrest⟩
        by_cases hr' : s.next.outcomes.head?.join = none
        case pos =>
          rw [if_pos hr'] at hrest
          exact .drop (served_succ.mpr ⟨hr, served_succ.mpr ⟨hr', served_zero⟩⟩) rfl hn hrest.left
            hrest.right hf
        case neg =>
          rw [if_neg hr'] at hrest
          exact .stuck (fun h₂ => hr' (served_succ.mp (served_succ.mp h₂).right).left) rfl hn hrest hf
      case neg =>
        obtain ⟨m, rfl⟩ := Nat.exists_eq_add_of_lt (Nat.lt_of_not_le hn)
        by_cases hm : m + 1 < e.blockCount
        case pos =>
          refine wp_imp (truncateRecord_cut h.next hsm m.succ_pos hm) ?_
          rintro _ s' ⟨rfl, hc, hf⟩
          exact .cut hr rfl m.succ_pos hm rfl hc hf
        case neg =>
          have hge : ¬countBlocks fs + countBlocks es + m + 1 <
              u64 (countBlocks fs + countBlocks es + e.blockCount) := by
            rw [u64_of_lt (by omega)]
            omega
          simp only [truncateRecord, hn, hge, if_false, wp_pure]
          refine .ended (.inr ?_)
          rw [countBlocks_append, countBlocks_cons, countBlocks_nil]
          omega

-- Behind a record that could not be removed the loop does not come any further.
theorem truncateRound_stuck (h : s.CoveredBy ino fs (es ++ [e])) (ht : s'.exttree = s.exttree)
    (hf : s.fsm.Freed (List.range' e.firstBlock e.blockCount) s'.fsm)
    (hn : n ≤ countBlocks fs + countBlocks es) :
    (truncateRound ino n).wp (fun r s'' => r = some () ∧ s''.exttree = s.exttree)
      (fun _ _ => True) True s' := by
  have hv := h.overflow e (by simp)
  have hmax := h.lastIblock_le
  refine wp_bind.mpr (wp_onFail.mpr (wp_bind.mpr ?_))
  cases hr : s'.outcomes.head?.join
  case some err =>
    rw [wp_of_fail (extentFind_fail hr)]
    exact ⟨rfl, ht⟩
  case none =>
    rw [wp_of_ok (h.extentFind_eq ht hr (by decide) hmax (.inl rfl))]
    simp only [wp_pure, ne_eq, not_true_eq_false, if_false, truncateRecord, hn, if_true, wp_bind]
    refine wp_imp (putFreeBlock_freed hf.small hv.first_pos hv.count_pos (hf.size.bytes ▸ hv.inside))
      ?_
    -- its first block is free already
    rintro _ _ ⟨fsm', hf', rfl⟩
    have hmem : e.firstBlock ∈ List.range' e.firstBlock e.blockCount := by
      simp [hv.count_pos]
    have := hf'.used _ hmem
    rw [show s'.next.fsm = s'.fsm from rfl, hf.bits] at this
    simp [hmem] at this

end Rounds

section Requests

theorem recordRequests_append :
    recordRequests n (l ++ l') = recordRequests n l + recordRequests n l' := by
  simp only [recordRequests, List.countP_append]
  omega

theorem recordRequests_last : recordRequests n [⟨⟨ino, iblock⟩, some e⟩] =
    if n ≤ iblock then 2 else if n < iblock + e.blockCount then 1 else 0 := by
  by_cases h : n ≤ iblock
  case pos => simp [recordRequests, h, Nat.not_lt.mpr h]
  case neg =>
    by_cases hlt : n < iblock + e.blockCount <;>
      simp [recordRequests, h, hlt, Nat.lt_of_not_le h]

-- Extents that end before the new end need no request.
theorem recordRequests_of_le (hv : ∀ e ∈ es, e.OnVolume bytes) (h : start + countBlocks es ≤ n) :
    recordRequests n (recordsFrom ino start es) = 0 := by
  induction es generalizing start
  case nil          => rfl
  case cons e es ih =>
    have hpos := (hv e (by simp)).count_pos
    rw [countBlocks_cons] at h
    rw [recordsFrom, ← List.singleton_append, recordRequests_append, recordRequests_last,
      if_neg (by omega), if_neg (by omega), ih (fun e he => hv e (by simp [he])) (by omega)]

theorem recordRequests_drop (h : n ≤ start + countBlocks es) :
    recordRequests n (recordsFrom ino start (es ++ [e])) =
      recordRequests n (recordsFrom ino start es) + 2 := by
  rw [recordsFrom_append, recordRequests_append, recordsFrom, recordsFrom, recordRequests_last,
    if_pos h]

-- Some request is needed exactly if the last extent ends behind the new end.
theorem recordRequests_pos_iff (hv : ∀ e ∈ es, e.OnVolume bytes) :
    0 < recordRequests n (recordsFrom ino start es) ↔ es ≠ [] ∧ n < start + countBlocks es := by
  rcases List.eq_nil_or_concat' es with rfl | ⟨es, e, rfl⟩
  case inl => simp [recordsFrom, recordRequests]
  case inr =>
    have hpos := (hv e (by simp)).count_pos
    simp only [recordsFrom_append, recordRequests_append, recordsFrom, recordRequests_last,
      countBlocks_append, countBlocks_cons, countBlocks_nil, Nat.add_zero]
    have hsmall := @recordRequests_of_le es bytes start n ino fun e he => hv e (by simp [he])
    constructor
    case mp  => exact fun h => ⟨by simp, by split_ifs at h <;> omega⟩
    case mpr => exact fun h => by have := h.right; split_ifs <;> omega

end Requests

section Tree

theorem CoveredBy.overlooked (h : s.CoveredBy ino fs (es ++ [e])) (ht : s'.exttree = s.exttree)
    (hn : n < countBlocks fs + countBlocks es + e.blockCount) : s'.Overlooked ino n := by
  obtain ⟨before, behind, hs, _, _⟩ := h.exists_split
  exact ⟨⟨⟨ino, countBlocks fs + countBlocks es⟩, some e⟩, by rw [ht, hs]; simp, rfl, hn⟩

theorem CoveredBy.not_overlooked (h : s.CoveredBy ino fs es)
    (hn : countBlocks fs + countBlocks es ≤ n) : ¬s.Overlooked ino n := by
  rintro ⟨r, hr, he, hlt⟩
  have hmem : r ∈ s.recordsOf ino := List.mem_filter.mpr ⟨hr, by simp [he]⟩
  rw [h.records] at hmem
  obtain ⟨before, e, behind, rfl, rfl⟩ := mem_recordsFrom hmem
  simp only [Option.elim_some, countBlocks_append, countBlocks_cons] at hlt hn
  omega

-- Nothing has to be done about extents that end before the new end.
theorem CoveredBy.trimmed (h : s'.CoveredBy ino fs es) (hsm : s'.fsm.Small) (hf : s'.fsm = s.fsm)
    (hn : es = [] ∨ countBlocks fs + countBlocks es ≤ n) : Trimmed ino n fs es s s' := by
  have hlen : (blockList es).length ≤ n - countBlocks fs := by
    rcases hn with rfl | hn
    · simp
    · rw [length_blockList]
      omega
  refine ⟨es, h, (List.take_of_length_le hlen).symm, ?_⟩
  rw [List.drop_of_length_le hlen, ← hf]
  exact .nil hsm

theorem Trimmed.of_cut (h : s'.CoveredBy ino fs (es ++ [.of e.firstBlock m]))
    (hlt : m < e.blockCount)
    (hf : s.fsm.Freed (List.range' (e.firstBlock + m) (e.blockCount - m)) s'.fsm) :
    Trimmed ino (countBlocks fs + countBlocks es + m) fs (es ++ [e]) s s' := by
  have hn : countBlocks fs + countBlocks es + m - countBlocks fs = countBlocks es + m := by omega
  exact ⟨_, h, by rw [hn, take_blockList_add hlt], by rwa [hn, drop_blockList_add]⟩

theorem Trimmed.of_drop (hn : n ≤ countBlocks fs + countBlocks es)
    (hf : s.fsm.Freed (List.range' e.firstBlock e.blockCount) s'.fsm)
    (h : Trimmed ino n fs es s' s'') : Trimmed ino n fs (es ++ [e]) s s'' := by
  obtain ⟨es', hc, hb, hf'⟩ := h
  have hle : n - countBlocks fs ≤ countBlocks es := by omega
  refine ⟨es', hc, by rw [take_blockList hle, hb], ?_⟩
  rw [drop_blockList hle]
  exact hf'.append hf

-- The loop of truncate_exttree cuts the tree at the new end if it finds the records behind it and
-- can remove them. Otherwise it leaves one of them and does not say so.
theorem truncateLoop_spec (h : s.CoveredBy ino fs es) (hsm : s.fsm.Small) :
    (Code.loop (truncateRound ino n) rounds).wp (fun _ s' =>
      (s.Served (recordRequests n (recordsFrom ino (countBlocks fs) es)) → Trimmed ino n fs es s s') ∧
      (¬s.Served (recordRequests n (recordsFrom ino (countBlocks fs) es)) → s'.Overlooked ino n))
      (fun _ _ => True) True s := by
  induction rounds generalizing s es
  case zero => trivial
  case succ rounds ih =>
    have hpos : 0 < recordRequests n (recordsFrom ino (countBlocks fs) es) ↔ _ :=
      recordRequests_pos_iff h.overflow
    refine wp_bind.mpr (wp_imp (truncateRound_spec h hsm) ?_)
    intro r s' hround
    cases hround
    case missed hr =>
      -- it does not matter that the search failed if there was nothing to find
      refine ⟨fun hserved => h.next.trimmed hsm rfl ?_, fun hserved => ?_⟩
      · have hzero : ¬0 < recordRequests n (recordsFrom ino (countBlocks fs) es) := fun hk => by
          rw [← Nat.sub_add_cancel hk] at hserved
          exact hr (served_succ.mp hserved).left
        rw [hpos] at hzero
        by_cases he : es = []
        case pos => exact .inl he
        case neg => exact .inr (Nat.not_lt.mp fun hlt => hzero ⟨he, hlt⟩)
      · have hk : 0 < recordRequests n (recordsFrom ino (countBlocks fs) es) :=
          Nat.pos_of_ne_zero fun h₀ => hserved (h₀ ▸ served_zero)
        obtain ⟨hne, hlt⟩ := hpos.mp hk
        obtain ⟨init, e, rfl⟩ := (List.eq_nil_or_concat' es).resolve_left hne
        rw [countBlocks_append, countBlocks_cons, countBlocks_nil] at hlt
        exact h.overlooked rfl (by omega)
    case ended hn =>
      have hzero : recordRequests n (recordsFrom ino (countBlocks fs) es) = 0 :=
        Nat.eq_zero_of_not_pos fun hk => by
          obtain ⟨hne, hlt⟩ := hpos.mp hk
          exact hn.elim hne fun hle => absurd hle (Nat.not_le.mpr hlt)
      exact ⟨fun _ => h.next.trimmed hsm rfl hn, fun hserved => absurd (hzero ▸ served_zero) hserved⟩
    case cut init e m hr he hm hlt hn hc hf =>
      subst he hn
      have hone : recordRequests (countBlocks fs + countBlocks init + m)
          (recordsFrom ino (countBlocks fs) (init ++ [e])) = 1 := by
        rw [recordsFrom_append, recordRequests_append, recordRequests_of_le
          (fun e he => h.overflow e (by simp [he])) (by omega), recordsFrom, recordsFrom,
          recordRequests_last, if_neg (by omega), if_pos (by omega)]
      rw [hone]
      exact ⟨fun _ => .of_cut hc hlt hf, fun hserved =>
        absurd (served_succ.mpr ⟨hr, served_zero⟩) hserved⟩
    case drop init e hserved he hn hc ho hf =>
      subst he
      have hsame {k : Nat} : s'.Served k ↔ s.next.next.Served k := by rw [Served, ho, Served]
      have hrest := ih hc hf.small
      simp only [hsame] at hrest
      rw [recordRequests_drop hn, served_add_two]
      refine wp_imp hrest (fun _ s'' hr => ?_)
      exact ⟨fun hs => .of_drop hn hf (hr.left hs.right), fun hs => hr.right fun h' => hs ⟨hserved, h'⟩⟩
    case stuck init e hserved he hn ht hf =>
      subst he
      rw [recordRequests_drop hn, served_add_two]
      cases rounds
      case zero => trivial
      case succ rounds =>
        refine wp_bind.mpr (wp_imp (truncateRound_stuck h ht hf hn) ?_)
        rintro _ s'' ⟨rfl, ht'⟩
        have hpos := (h.overflow e (by simp)).count_pos
        exact ⟨fun hs => absurd hs.left hserved, fun _ => h.overlooked ht' (by omega)⟩

-- A round more than there are records is enough, and one more for a record that cannot be removed.
theorem truncateLoop_ends (h : s.CoveredBy ino fs es) (hsm : s.fsm.Small) :
    Ends (truncateRound ino n) (es.length + 2) s := by
  induction hk : es.length generalizing s es
  all_goals
    rw [Ends]
    refine wp_mono (truncateRound_spec h hsm) ?_ (fun _ _ _ => trivial) fun _ => trivial
    intro r s' hround hnone
  case zero =>
    cases List.eq_nil_of_length_eq_zero hk
    cases hround
    case missed            => cases hnone
    case ended             => cases hnone
    case cut               => cases hnone
    case drop _ he _ _ _ _ => simp at he
    case stuck _ he _ _ _  => simp at he
  case succ k ih =>
    cases hround
    case missed => cases hnone
    case ended  => cases hnone
    case cut    => cases hnone
    case drop init e _ he hn hc _ hf =>
      subst he
      exact ih hc hf.small (by simpa using hk)
    case stuck init e _ he hn ht hf =>
      subst he
      refine wp_imp (truncateRound_stuck h ht hf hn) ?_
      rintro _ _ ⟨rfl, _⟩ hnone
      cases hnone

end Tree

section Fork

variable {fork : ForkInfo}

theorem inUse_shrink :
    (fork.shrink used i e n).inUse = (fork.extents.toList.take used).set i e := by
  simp [ForkInfo.inUse, ForkInfo.shrink, List.take_set]

theorem ForkHolds.usedExtents_eq (h : s.ForkHolds ino fs behind) :
    (s.forks ino).usedExtents = fs.length := by
  have hlen := congrArg List.length h.fork
  have hused := h.used
  rw [ForkInfo.inUse, List.length_take, Vector.length_toList] at hlen
  omega

theorem ForkHolds.last (h : s.ForkHolds ino (fs ++ [e]) behind) :
    (s.forks ino).extents[fs.length]? = some e := by
  rw [← getElem?_inUse (by simp [h.usedExtents_eq]), h.fork]
  simp

-- The fork has lost `n` blocks, and `fs'` is left of its extents.
theorem ForkHolds.of_shrink (h : s.ForkHolds ino fs behind) (hsize : s.fsm.SameSize fsm')
    (hleft : left ≤ extentsCountInFork)
    (hfork : ((s.forks ino).shrink left i e n).inUse = fs')
    (hv : ∀ e ∈ fs', e.OnVolume s.fsm.lengthInBytes)
    (hcount : countBlocks fs = countBlocks fs' + n) :
    (setFork ino ((s.forks ino).shrink left i e n)).wp (fun _ s' => s'.ForkHolds ino fs' behind ∧
      s'.fsm = fsm' ∧ s'.exttree = s.exttree) E H { s with fsm := fsm' } := by
  have hlt := (s.forks ino).total_lt
  have htotal := h.total
  refine ⟨⟨?_, ?_, ?_, ?_⟩, rfl, rfl⟩ <;> simp only [if_true]
  · exact hleft
  · exact hfork
  · change u32Sub (s.forks ino).totalBlockCount n = _
    rw [u32Sub_of_le (by omega) hlt]
    omega
  · simpa [hsize.bytes] using hv

-- The fork is cut at the new end if there are no other blocks behind it. With a negative size all of
-- its blocks become free.
theorem truncateExtents_spec {n : Int} (h : s.ForkHolds ino fs behind) (hsm : s.fsm.Small)
    (hn : n < countBlocks fs + behind) (hb : behind = 0 ∨ n < 0) :
    (truncateExtents ino n fs.length).wp (fun _ s' => ∃ fs', s'.ForkHolds ino fs' behind ∧
      blockList fs' = (blockList fs).take n.toNat ∧
      s.fsm.Freed ((blockList fs).drop n.toNat) s'.fsm ∧ s'.exttree = s.exttree)
      (fun _ _ => True) True s := by
  induction fs using List.reverseRecOn generalizing s
  case nil => exact ⟨[], h, by simp, by simpa using .nil hsm, rfl⟩
  case append_singleton fs e ih =>
    have hv := h.volume e (by simp)
    have hin := hv.inside
    have hbytes := hsm.bytes
    have hleft := h.used
    have hused := h.usedExtents_eq
    have htotal := h.total
    have hlt := (s.forks ino).total_lt
    have htake : (s.forks ino).extents.toList.take (fs.length + 1) = fs ++ [e] := by
      rw [← h.fork, ForkInfo.inUse, hused, List.length_append, List.length_singleton]
    rw [List.length_append, List.length_singleton] at hused
    rw [countBlocks_append, countBlocks_cons, countBlocks_nil, Nat.add_zero] at htotal hn
    rw [List.length_append, List.length_singleton]
    simp only [truncateExtents, wp_bind, wp_get, hused, Nat.add_sub_cancel, h.last, wp_ite]
    refine ⟨fun hfull => ?_, fun hpart => ?_⟩
    case refine_1 =>
      refine wp_imp (putFreeBlock_freed hsm hv.first_pos hv.count_pos hv.inside) ?_
      rintro _ _ ⟨fsm', hf, rfl⟩
      have hfork : ((s.forks ino).shrink fs.length fs.length .zero e.blockCount).inUse = fs := by
        have hinit := congrArg (List.take fs.length) htake
        rw [List.take_take, Nat.min_eq_left (Nat.le_add_right _ _), List.take_left] at hinit
        rw [inUse_shrink, hinit, List.set_eq_of_length_le le_rfl]
      refine wp_bind.mpr (wp_imp (h.of_shrink hf.size (by omega) hfork
        (fun e he => h.volume e (by simp [he])) (by simp)) ?_)
      rintro _ s₁ ⟨h₁, rfl, ht⟩
      rw [u32Sub_of_le (by omega) hlt, wp_ite]
      refine ⟨fun hend => ?_, fun hmore => ?_⟩
      · have hn' : n.toNat = countBlocks fs := by omega
        refine ⟨fs, h₁, ?_, ?_, ht⟩
        · rw [hn', take_blockList le_rfl, List.take_of_length_le (by simp)]
        · rw [hn', drop_blockList le_rfl, List.drop_of_length_le (by simp)]
          exact hf
      · have hle : n.toNat ≤ countBlocks fs := by omega
        refine wp_imp (ih h₁ hf.small (by omega)) ?_
        rintro _ s' ⟨fs', h', hb', hf', ht'⟩
        refine ⟨fs', h', by rw [take_blockList hle, hb'], ?_, ht'.trans ht⟩
        rw [drop_blockList hle]
        exact hf'.append hf
    case refine_2 =>
      -- the new end lies inside of the last extent
      obtain ⟨m, rfl⟩ : ∃ m : Nat, n = (countBlocks fs + m : Nat) := ⟨n.toNat - countBlocks fs, by omega⟩
      have hm : 0 < m := by omega
      have hlt' : m < e.blockCount := by omega
      have hdelta : (((s.forks ino).totalBlockCount - (countBlocks fs + m : Nat) : Int) %
          2 ^ 64).toNat = e.blockCount - m := by
        omega
      obtain ⟨hstart, hlen⟩ := hv.parts hbytes hlt'
      rw [hdelta, hstart, hlen, u32_of_lt (by omega)]
      refine wp_imp (putFreeBlock_freed hsm (by omega) (by omega) (by omega)) ?_
      rintro _ _ ⟨fsm', hf, rfl⟩
      have hfork : ((s.forks ino).shrink (fs.length + 1) fs.length (.of e.firstBlock m)
          (e.blockCount - m)).inUse = fs ++ [.of e.firstBlock m] := by
        rw [inUse_shrink, htake]
        simp
      refine wp_imp (h.of_shrink hf.size (by omega) hfork ?_ ?_) ?_
      · exact onVolume_cut h.volume hm hlt'
      · simp only [countBlocks_append, countBlocks_cons, countBlocks_nil, ExtentInfo.blockCount_of hlt']
        omega
      · rintro _ s₁ ⟨h₁, rfl, ht⟩
        refine ⟨_, h₁, ?_, ?_, ht⟩
        · rw [Int.toNat_natCast, take_blockList_add hlt']
        · rwa [Int.toNat_natCast, drop_blockList_add]

end Fork

section Sizes

variable {blockSize : BlockSize} {size : Nat}

theorem s64_of_lt (h₀ : 0 ≤ x) (h : x < 2 ^ 63) : s64 x = x := by
  rw [s64, Int.bmod_def]
  omega

theorem s64_of_le (h₀ : 2 ^ 63 ≤ x) (h : x < 2 ^ 64) : s64 x = x - 2 ^ 64 := by
  rw [s64, Int.bmod_def]
  omega

theorem two_pow_shift_le (blockSize : BlockSize) : 2 ^ blockSize.shift ≤ 2 ^ 12 :=
  Nat.pow_le_pow_right (by decide) blockSize.shift_le

-- The new size in blocks if the sum does not overflow.
theorem rounded_of_le (h : size + 2 ^ blockSize.shift ≤ 2 ^ 63) :
    s64 (size + 2 ^ blockSize.shift - 1) >>> blockSize.shift = (blocksFor blockSize size : Int) := by
  have hpos : 0 < 2 ^ blockSize.shift := Nat.two_pow_pos _
  have hsum : (size + 2 ^ blockSize.shift - 1 : Int) = (size + 2 ^ blockSize.shift - 1 : Nat) := by
    push_cast [show 1 ≤ size + 2 ^ blockSize.shift by omega]
    rfl
  rw [hsum, s64_of_lt (by omega) (by omega), Int.shiftRight_eq_div_pow, blocksFor]
  norm_cast

-- If it does the size becomes negative.
theorem rounded_of_gt (h : 2 ^ 63 < size + 2 ^ blockSize.shift) (hs : size < 2 ^ 63) :
    -2 ^ 63 ≤ s64 (size + 2 ^ blockSize.shift - 1) >>> blockSize.shift ∧
    s64 (size + 2 ^ blockSize.shift - 1) >>> blockSize.shift < 0 := by
  have hpos : 0 < 2 ^ blockSize.shift := Nat.two_pow_pos _
  have hle := two_pow_shift_le blockSize
  have hsum : (size + 2 ^ blockSize.shift - 1 : Int) = (size + 2 ^ blockSize.shift - 1 : Nat) := by
    push_cast [show 1 ≤ size + 2 ^ blockSize.shift by omega]
    rfl
  rw [hsum, s64_of_le (by omega) (by omega), Int.shiftRight_eq_div_pow]
  have hpos' : (0 : Int) < (2 ^ blockSize.shift : Nat) := by omega
  refine ⟨Int.le_ediv_of_mul_le hpos' ?_, Int.ediv_neg_of_neg_of_pos (by omega) hpos'⟩
  omega

end Sizes

end Emmcfs.Expansion
