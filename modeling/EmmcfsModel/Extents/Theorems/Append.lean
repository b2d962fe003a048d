import EmmcfsModel.Extents.Append
import EmmcfsModel.Extents.Theorems.Cover
import EmmcfsModel.Extents.Theorems.GetBlock
import Mathlib.Data.List.TakeWhile

namespace Emmcfs

open Code

section Extents

variable {es : List ExtentInfo}

theorem ExtentInfo.firstBlock_of_lt (h : first < 2 ^ 64) : (of first cnt).firstBlock = first :=
  Nat.mod_eq_of_lt h

theorem ExtentInfo.blockCount_of_lt (h : cnt < 2 ^ 32) : (of first cnt).blockCount = cnt :=
  u32_of_lt h

theorem ExtentInfo.onVolume_of (hf : 0 < first) (hc : 0 < cnt) (hle : first + cnt ≤ 8 * bytes)
    (hb : bytes ≤ 2 ^ 29) : (of first cnt).OnVolume bytes := by
  have hfirst : (of first cnt).firstBlock = first := firstBlock_of_lt (by omega)
  have hcount : (of first cnt).blockCount = cnt := blockCount_of_lt (by omega)
  exact ⟨by rwa [hfirst], by rwa [hcount], by rwa [hfirst, hcount]⟩

theorem mem_blockList (hv : ∀ e ∈ es, e.OnVolume bytes) (hb : b ∈ blockList es) :
    0 < b ∧ b < 8 * bytes := by
  obtain ⟨e, he, hb⟩ := List.mem_flatMap.mp hb
  obtain ⟨hle, hlt⟩ := List.mem_range'_1.mp hb
  have := (hv e he).first_pos
  have := (hv e he).inside
  omega

-- The extent for blocks that a file has got, alone or behind those of its last extent.
theorem blockList_of (hf : first < 2 ^ 64) (hc : cnt < 2 ^ 32) :
    blockList (es ++ [.of first cnt]) = blockList es ++ List.range' first cnt := by
  rw [blockList_append, blockList_cons, blockList_nil, List.append_nil,
    ExtentInfo.firstBlock_of_lt hf, ExtentInfo.blockCount_of_lt hc]

theorem blockList_extend (hc : e.blockCount + cnt < 2 ^ 32) :
    blockList (es ++ [.of e.firstBlock (e.blockCount + cnt)]) =
      blockList (es ++ [e]) ++ List.range' (e.firstBlock + e.blockCount) cnt := by
  rw [blockList_of e.first_lt hc, ← List.range'_append_1, blockList_append, blockList_cons, blockList_nil,
    List.append_nil, List.append_assoc]

end Extents

-- A fork with a new last extent.
theorem ForkInfo.inUse_expand {fork : ForkInfo} (h : i < extentsCountInFork) :
    (fork.expand (i + 1) i e cnt).inUse = fork.extents.toList.take i ++ [e] := by
  have hlen : i < (fork.extents.toList.set i e).length := by simpa using h
  rw [inUse, expand, Vector.toList_setIfInBounds, List.take_add_one, List.take_set_of_le le_rfl,
    List.getElem?_eq_getElem hlen, List.getElem_set_self]
  rfl

namespace Expansion

variable {s s' s'' : Expansion} {blocks : List Nat} {free : Finset Nat}

section Volume

theorem Remains.refl : Remains s s :=
  ⟨.refl, rfl, rfl, rfl⟩

theorem Remains.trans (h : Remains s s') (h' : Remains s' s'') : Remains s s'' :=
  ⟨h.toKept.trans h'.toKept, h'.bytes.trans h.bytes, h'.log.trans h.log, h'.total.trans h.total⟩

theorem Remains.of_fsm (hf : s'.fsm = s.fsm) (hk : Kept s s') : Remains s s' :=
  ⟨hk, by rw [hf], by rw [hf], by rw [hf]⟩

theorem fixed_sizes :
    FsmInfo.Fixed fun fsm => (fsm.lengthInBytes, fsm.logBlocksInLeb, fsm.totalBlocks) :=
  fun _ _ _ _ => rfl

-- What changes the free space manager only.
theorem onFsm_remains {m : Driver FsmInfo α}
    (h : ∀ c, Keeps (fun fsm => (fsm.lengthInBytes, fsm.logBlocksInLeb, fsm.totalBlocks) = c) m) :
    (onFsm m).wp (fun _ => Remains s) (fun _ => Remains s) True s := by
  have hsizes (fsm : FsmInfo) (he : (fsm.lengthInBytes, fsm.logBlocksInLeb, fsm.totalBlocks) =
      (s.fsm.lengthInBytes, s.fsm.logBlocksInLeb, s.fsm.totalBlocks)) :
      Remains s { s with fsm := fsm } := by
    simp only [Prod.mk.injEq] at he
    exact ⟨.of_fsm, he.1, he.2.1, he.2.2⟩
  rw [onFsm, wp_zoom]
  exact wp_mono (h _ s.fsm rfl) (fun _ => hsizes) (fun _ => hsizes) id

theorem ask_remains (h : s.fsm.Manages free) (hsm : s.fsm.Small) :
    (onFsm (fsmGetFreeBlock hint cnt)).wp (fun r s' => (r = 0 ∧ s' = s) ∨
      (Took free s r cnt s' ∧ Remains s s')) (fun _ _ => False) True s := by
  refine wp_mono (wp_and (ask_spec h hsm) (onFsm_remains fun _ => fixed_sizes.getFreeBlock)) ?_
    (fun _ _ h => h.left) fun h => h.right
  rintro r s' ⟨h | h, hr⟩
  · exact .inl h
  · exact .inr ⟨h.left, hr⟩

theorem putBack_remains (h : s.fsm.Manages free) (hc : 0 < cnt) (ht : Took free s start cnt s') :
    (onFail (onFsm (fsmPutFreeBlock start cnt)) fun _ => Code.halt).wp
      (fun _ s'' => Frees free s s'' ∧ Remains s' s'') (fun _ _ => False) True s' := by
  have hr : (onFail (onFsm (fsmPutFreeBlock start cnt)) fun _ => Code.halt).wp
      (fun _ => Remains s') (fun _ _ => False) True s' :=
    wp_onFail.mpr <| wp_mono (onFsm_remains fun _ => fixed_sizes.freeBlockChunk) (fun _ _ => id)
      (fun _ _ _ => trivial) id
  exact wp_mono (wp_and (putBack_spec h hc ht) hr) (fun _ _ h => ⟨h.left.left, h.right⟩)
    (fun _ _ h => h.left) fun h => h.right

end Volume

section Sound

theorem CoveredBy.of_remains (h : s.CoveredBy ino fs es) (hr : Remains s s') :
    s'.CoveredBy ino fs es where
  used     := hr.forks ▸ h.used
  fork     := hr.forks ▸ h.fork
  total    := hr.forks ▸ h.total
  volume   := hr.bytes ▸ h.volume
  records  := by rw [recordsOf, hr.exttree]; exact h.records
  overflow := hr.bytes ▸ h.overflow
  sorted   := hr.exttree ▸ h.sorted

theorem Consists.of_remains (h : s.Consists ino blocks) (hr : Remains s s') :
    s'.Consists ino blocks := by
  obtain ⟨fs, es, hc, hblocks, hfull⟩ := h
  exact ⟨fs, es, hc.of_remains hr, hblocks, hr.forks ▸ hfull⟩

theorem Consists.total_eq (h : s.Consists ino blocks) :
    (s.forks ino).totalBlockCount = blocks.length := by
  obtain ⟨fs, es, hc, rfl, _⟩ := h
  rw [hc.total, length_blockList, countBlocks_append]

theorem Consists.mem (h : s.Consists ino blocks) (hb : b ∈ blocks) :
    0 < b ∧ b < 8 * s.fsm.lengthInBytes := by
  obtain ⟨fs, es, hc, rfl, _⟩ := h
  refine mem_blockList (fun e he => ?_) hb
  exact (List.mem_append.mp he).elim (hc.volume e) (hc.overflow e)

theorem freeBlocks_eq (hm : s.fsm.Manages free) : s.freeBlocks = free :=
  hm.bits.symm

theorem Took.le (ht : Took s.freeBlocks s r cnt s') (hc : 0 < cnt) :
    r + cnt ≤ 8 * s.fsm.lengthInBytes := by
  have hmem : r + cnt - 1 ∈ s.freeBlocks :=
    ht.subset (Finset.mem_Ico.mpr ⟨by omega, by omega⟩)
  have := (mem_clearBits.mp hmem).left
  omega

variable (h : s.Sound ino blocks)
include h

theorem Sound.of_remains (hr : Remains s s') (hm : s'.fsm.Manages free) (hsm : s'.fsm.Small)
    (hsub : free ⊆ s.freeBlocks) : s'.Sound ino blocks where
  consists := h.consists.of_remains hr
  manages  := freeBlocks_eq hm ▸ hm
  small    := hsm
  nodup    := h.nodup
  taken    := fun b hb hf => h.taken b hb (hsub (freeBlocks_eq hm ▸ hf))
  log      := hr.log ▸ h.log
  total    := hr.total ▸ h.total

-- Blocks that were free are none of the file's.
theorem Sound.nodup_append (ht : Took s.freeBlocks s r cnt s') :
    (blocks ++ List.range' r cnt).Nodup := by
  refine List.nodup_append.mpr ⟨h.nodup, List.nodup_range', fun a ha b hb hab => ?_⟩
  exact h.taken a ha (ht.subset (Finset.mem_Ico.mpr (List.mem_range'_1.mp (hab ▸ hb))))

-- The number of blocks of the file can still be held.
theorem Sound.fits (ht : Took s.freeBlocks s r cnt s') : blocks.length + cnt < 2 ^ 32 := by
  have hsub : (blocks ++ List.range' r cnt).toFinset ⊆ Finset.Ico 1 (8 * s.fsm.lengthInBytes) := by
    intro b hb
    rw [List.mem_toFinset, List.mem_append] at hb
    rw [Finset.mem_Ico]
    rcases hb with hb | hb
    case inl => exact h.consists.mem hb
    case inr =>
      have hb := List.mem_range'_1.mp hb
      have := (mem_clearBits.mp (ht.subset (Finset.mem_Ico.mpr hb))).left
      have := ht.pos
      omega
  have hcard := Finset.card_le_card hsub
  rw [List.toFinset_card_of_nodup (h.nodup_append ht), List.length_append, List.length_range',
    Nat.card_Ico] at hcard
  have := h.small.bytes
  omega

theorem Sound.grow (ht : Took s.freeBlocks s r cnt s') (hr : Remains s s') (hf : s''.fsm = s'.fsm)
    (hc : s''.Consists ino (blocks ++ List.range' r cnt)) :
    s''.Sound ino (blocks ++ List.range' r cnt) := by
  have hfree : s''.freeBlocks = s.freeBlocks \ Finset.Ico r (r + cnt) := by
    rw [freeBlocks, hf, ht.manages.bits]
  exact {
    consists := hc
    manages  := by rw [hfree, hf]; exact ht.manages
    small    := hf ▸ ht.small
    nodup    := h.nodup_append ht
    taken    := fun b hb hn => by
      rw [hfree, Finset.mem_sdiff, Finset.mem_Ico] at hn
      rcases List.mem_append.mp hb with hb | hb
      · exact h.taken b hb hn.left
      · exact hn.right (List.mem_range'_1.mp hb)
    log      := by rw [hf, hr.log]; exact h.log
    total    := by rw [hf, hr.total]; exact h.total }

end Sound

section Fork

variable {fs es : List ExtentInfo}

theorem recordsFrom_eq_nil (h : recordsFrom ino start es = []) : es = [] := by
  cases es
  case nil  => rfl
  case cons => cases h

-- A file without records gets blocks: they are the end of the last extent of its fork.
theorem Sound.setFork_spec (h : s.Sound ino blocks) (hn : s.recordsOf ino = [])
    (ht : Took s.freeBlocks s r cnt s') (hr : Remains s s') (hi : i < extentsCountInFork)
    (hle : i ≤ (s.forks ino).usedExtents) (he : e.OnVolume s.fsm.lengthInBytes)
    (hb : blockList ((s.forks ino).extents.toList.take i ++ [e]) = blocks ++ List.range' r cnt) :
    (do setFork ino ((s.forks ino).expand (i + 1) i e cnt); pure r : ExpandCode Nat).wp
      (fun r s' => 0 < r ∧ s'.Sound ino (blocks ++ List.range' r cnt)) E H s' := by
  obtain ⟨fs, es, hc, hblocks, _⟩ := h.consists
  obtain rfl := recordsFrom_eq_nil (hc.records.symm.trans hn)
  have hfits := h.fits ht
  simp only [setFork, wp_bind, wp_modify, wp_pure]
  refine ⟨ht.pos, h.grow ht hr rfl ⟨(s.forks ino).extents.toList.take i ++ [e], [], ?_, ?_, absurd rfl⟩⟩
  case refine_1 =>
    have hcount := congrArg List.length hb
    rw [length_blockList, List.length_append, List.length_range'] at hcount
    exact {
      used     := by simpa [ForkInfo.expand] using Nat.succ_le_of_lt hi
      fork     := by simpa using ForkInfo.inUse_expand hi
      total    := by
        simp only [if_true, ForkInfo.expand, h.consists.total_eq, u32_of_lt hfits, hcount]
        rfl
      volume   := fun e' he' => by
        rw [hr.bytes]
        rcases List.mem_append.mp he' with he' | he'
        · refine hc.volume e' (hc.fork ▸ ?_)
          exact List.take_subset_take_left _ hle he'
        · exact List.mem_singleton.mp he' ▸ he
      records  := by rw [recordsOf, hr.exttree]; exact hn
      overflow := by simp
      sorted   := by rw [hr.exttree]; exact hc.sorted }
  case refine_2 => rw [List.append_nil, hb]

theorem expandFork_sound (h : s.Sound ino blocks) (hn : s.recordsOf ino = []) (hc : 0 < cnt)
    (hlt : cnt < 2 ^ 32) : (expandFork ino cnt).wp
    (fun r s' => 0 < r ∧ s'.Sound ino (blocks ++ List.range' r cnt))
    (fun _ s' => s'.Sound ino blocks ∧ Remains s s') True s := by
  have hb := h.small.bytes
  have hsame : s.Sound ino blocks ∧ Remains s s := ⟨h, .refl⟩
  obtain ⟨fs, es, hcov, hblocks, _⟩ := h.consists
  obtain rfl := recordsFrom_eq_nil (hcov.records.symm.trans hn)
  rw [List.append_nil, ← hcov.fork, ForkInfo.inUse] at hblocks
  simp only [expandFork, wp_bind, wp_get, wp_ite, wp_fail, u32_of_lt hlt]
  refine ⟨fun hzero => ⟨fun _ => hsame, fun _ => ?_⟩, fun _ => ?_⟩
  case refine_1 =>
    refine wp_mono (ask_remains h.manages h.small) ?_ (fun _ _ => False.elim) id
    rintro r s' (⟨rfl, rfl⟩ | ⟨ht, hr⟩) <;> rw [wp_ite]
    · exact ⟨fun _ => hsame, fun hne => absurd rfl hne⟩
    · refine ⟨fun he => absurd he ht.pos.ne', fun _ => ?_⟩
      have hle := ht.le hc
      have hempty : blocks = [] := by
        rw [hblocks, hzero.right, List.take_zero, blockList_nil]
      refine h.setFork_spec hn ht hr (by decide) (Nat.zero_le _)
        (ExtentInfo.onVolume_of ht.pos hc hle hb) ?_
      rw [blockList_of (by omega) hlt, List.take_zero, blockList_nil, hempty]
  case refine_2 =>
    split
    case h_2 => trivial
    case h_1 used last hu hl =>
      have hused := hcov.used
      have hlast : (s.forks ino).extents.toList.take (used + 1) =
          (s.forks ino).extents.toList.take used ++ [last] := by
        rw [List.take_add_one, Vector.getElem?_toList, ← show (s.forks ino).usedExtents - 1 = used by omega, hl]
        rfl
      rw [hu, hlast] at hblocks
      have hv : last.OnVolume s.fsm.lengthInBytes := by
        refine hcov.volume last (hcov.fork ▸ ?_)
        rw [ForkInfo.inUse, hu, hlast]
        simp
      have hin := hv.inside
      have hpos := hv.first_pos
      simp only [wp_ite, wp_fail, wp_bind]
      refine ⟨fun _ => hsame, fun _ => ⟨fun _ => hsame, fun _ => ?_⟩⟩
      refine wp_mono (ask_remains h.manages h.small) ?_ (fun _ _ => False.elim) id
      rintro r s' (⟨rfl, rfl⟩ | ⟨ht, hr⟩) <;> simp only [wp_ite, wp_fail]
      · exact ⟨fun _ => hsame, fun hne => absurd trivial hne⟩
      · have hle := ht.le hc
        refine ⟨fun he => absurd he ht.pos.ne', fun _ => ⟨fun he => ?_, fun _ => ⟨fun _ => ?_, fun hroom => ?_⟩⟩⟩
        · rw [u64_of_lt (by omega)] at he
          subst he
          refine h.setFork_spec hn ht hr (by omega) (by omega)
            (ExtentInfo.onVolume_of hv.first_pos (by omega) (by omega) hb) ?_
          rw [blockList_extend (by omega), hblocks]
        · refine wp_bind.mpr (wp_mono (putBack_remains h.manages hc ht) (fun _ s'' h' => ?_) (fun _ _ => False.elim) id)
          have hr' := hr.trans h'.right
          exact ⟨h.of_remains hr' h'.left.manages h'.left.small subset_rfl, hr'⟩
        · refine h.setFork_spec hn ht hr (by omega) (by omega)
            (ExtentInfo.onVolume_of ht.pos hc hle hb) ?_
          rw [blockList_of (by omega) hlt, hlast, hblocks]

end Fork

section Records

variable {fs es : List ExtentInfo} {tree : List ExttreeRecord} {q r : ExttreeRecord}

theorem not_of_mem_dropWhile {p : α → Bool} {l : List α} (hs : l.Pairwise fun a b => p b → p a)
    (hx : x ∈ l.dropWhile p) : ¬p x := by
  induction l
  case nil => cases hx
  case cons a l ih =>
    rw [List.pairwise_cons] at hs
    by_cases ha : p a
    case pos => exact ih hs.right (by rwa [List.dropWhile_cons_of_pos ha] at hx)
    case neg =>
      rw [List.dropWhile_cons_of_neg ha] at hx
      rcases List.mem_cons.mp hx with rfl | hx
      · exact ha
      · exact fun hp => ha (hs.left x hx hp)

-- Where emmcfs_btree_insert puts a record.
def inserted (r : ExttreeRecord) (tree : List ExttreeRecord) : List ExttreeRecord :=
  (tree.takeWhile fun q => exttreeCmpfn q.key r.key < 0) ++
    r :: tree.dropWhile fun q => exttreeCmpfn q.key r.key < 0

section Insert

variable (hs : tree.Pairwise fun q r => exttreeCmpfn q.key r.key < 0)
  (hown : ∀ q ∈ tree, q.key.objectId = r.key.objectId → exttreeCmpfn q.key r.key < 0)

include hs hown

-- All records of the file are below its new one.
theorem above_of_mem (hq : q ∈ tree.dropWhile fun q => exttreeCmpfn q.key r.key < 0) :
    r.key.objectId < q.key.objectId := by
  have hle : ¬exttreeCmpfn q.key r.key < 0 := by
    have hs' : tree.Pairwise fun a b => decide (exttreeCmpfn b.key r.key < 0) →
        decide (exttreeCmpfn a.key r.key < 0) := by
      refine hs.imp fun {a b} hab hb => ?_
      simp only [decide_eq_true_eq, exttreeCmpfn_neg_iff] at hab hb ⊢
      omega
    simpa using not_of_mem_dropWhile hs' hq
  have hne : q.key.objectId ≠ r.key.objectId :=
    fun he => hle (hown q (List.dropWhile_subset _ hq) he)
  rw [exttreeCmpfn_neg_iff] at hle
  omega

theorem filter_inserted : (inserted r tree).filter (·.key.objectId = r.key.objectId) =
    tree.filter (·.key.objectId = r.key.objectId) ++ [r] := by
  have hnone : (tree.dropWhile fun q => exttreeCmpfn q.key r.key < 0).filter
      (·.key.objectId = r.key.objectId) = [] := by
    refine List.filter_eq_nil_iff.mpr fun q hq => ?_
    have := above_of_mem hs hown hq
    simp only [decide_eq_true_eq]
    omega
  have hsplit := congrArg (List.filter (·.key.objectId = r.key.objectId))
    (List.takeWhile_append_dropWhile (p := fun q => exttreeCmpfn q.key r.key < 0) (l := tree))
  rw [List.filter_append, hnone, List.append_nil] at hsplit
  rw [inserted, List.filter_append, List.filter_cons_of_pos (by simp), hnone, hsplit]

theorem pairwise_inserted :
    (inserted r tree).Pairwise fun q r => exttreeCmpfn q.key r.key < 0 := by
  refine List.pairwise_append.mpr ⟨hs.sublist (List.takeWhile_sublist _), ?_, fun q hq p hp => ?_⟩
  · refine List.pairwise_cons.mpr ⟨fun q hq => ?_, hs.sublist (List.dropWhile_sublist _)⟩
    exact exttreeCmpfn_neg_iff.mpr (.inl (above_of_mem hs hown hq))
  · have hq : exttreeCmpfn q.key r.key < 0 := by simpa using List.mem_takeWhile_imp hq
    rcases List.mem_cons.mp hp with rfl | hp
    · exact hq
    · have := above_of_mem hs hown hp
      rw [exttreeCmpfn_neg_iff] at hq ⊢
      omega

end Insert

-- The keys of the records of a file.
theorem CoveredBy.iblock_lt (h : s.CoveredBy ino fs es) (hq : q ∈ s.exttree)
    (ho : q.key.objectId = ino) : q.key.iblock < (s.forks ino).totalBlockCount := by
  have hmem : q ∈ s.recordsOf ino := List.mem_filter.mpr ⟨hq, by simpa using ho⟩
  rw [h.records] at hmem
  obtain ⟨before, e, behind, rfl, rfl⟩ := mem_recordsFrom hmem
  have := (h.overflow e (by simp)).count_pos
  simp only [h.total, countBlocks_append, countBlocks_cons]
  omega

theorem lengthen_total : ((s.lengthen ino cnt).forks ino).totalBlockCount =
    u32 ((s.forks ino).totalBlockCount + cnt) := by
  simp [lengthen]

-- The records of a file whose fork is full become those for more blocks.
theorem CoveredBy.lengthen (h : s.CoveredBy ino fs es) (hf : s'.forks = s.forks)
    (hb : s'.fsm.lengthInBytes = s.fsm.lengthInBytes)
    (hlt : (s.forks ino).totalBlockCount + cnt < 2 ^ 32)
    (hr : s'.recordsOf ino = recordsFrom ino (countBlocks fs) es')
    (hv : ∀ e ∈ es', e.OnVolume s.fsm.lengthInBytes) (hc : countBlocks es' = countBlocks es + cnt)
    (hs : s'.exttree.Pairwise fun q r => exttreeCmpfn q.key r.key < 0) :
    (s'.lengthen ino cnt).CoveredBy ino fs es' where
  used     := by simpa [Expansion.lengthen, hf] using h.used
  fork     := by simpa [Expansion.lengthen, hf, ForkInfo.inUse] using h.fork
  total    := by rw [lengthen_total, hf, u32_of_lt hlt, h.total, hc, Nat.add_assoc]
  volume   := fun e he => by simpa [Expansion.lengthen, hb] using h.volume e he
  records  := hr
  overflow := fun e he => by simpa [Expansion.lengthen, hb] using hv e he
  sorted   := hs

section Overflow

variable {start : Nat} (h : s.Sound ino blocks)
  (hfull : (s.forks ino).usedExtents = extentsCountInFork)
  (ht : Took s.freeBlocks s start cnt s') (hr : Remains s s') (hc : 0 < cnt)

include h hfull ht hr hc

-- The blocks get a record of their own.
theorem Sound.insert (hf : s''.fsm = s'.fsm) (hforks : s''.forks = s'.forks)
    (he : s''.exttree =
      inserted ⟨⟨ino, (s.forks ino).totalBlockCount⟩, some (.of start cnt)⟩ s'.exttree) :
    (s''.lengthen ino cnt).Sound ino (blocks ++ List.range' start cnt) := by
  obtain ⟨fs, es, hcov, hblocks, _⟩ := h.consists
  have hfits := h.fits ht
  have hle := ht.le hc
  have hb := h.small.bytes
  have hpos := ht.pos
  have htotal := h.consists.total_eq
  have hcount : (ExtentInfo.of start cnt).blockCount = cnt := ExtentInfo.blockCount_of_lt (by omega)
  have hown (q) (hq : q ∈ s.exttree) (ho : q.key.objectId = ino) :
      exttreeCmpfn q.key ⟨ino, (s.forks ino).totalBlockCount⟩ < 0 := by
    refine exttreeCmpfn_neg_iff.mpr (.inr ⟨ho, ?_, hcov.iblock_lt hq ho⟩)
    change (s.forks ino).totalBlockCount ≠ 0xFFFFFFFF
    omega
  rw [hr.exttree] at he
  refine h.grow ht hr (by exact hf) ⟨fs, es ++ [.of start cnt], ?_, ?_, fun _ => ?_⟩
  case refine_1 =>
    refine hcov.lengthen (hforks.trans hr.forks) (by rw [hf, hr.bytes]) (by omega) ?_ ?_ ?_ ?_
    · have hfilter := filter_inserted
        (r := ⟨⟨ino, (s.forks ino).totalBlockCount⟩, some (.of start cnt)⟩) hcov.sorted hown
      rw [recordsOf, he, hfilter, recordsFrom_append, ← hcov.total, ← hcov.records]
      rfl
    · intro e he
      rcases List.mem_append.mp he with he | he
      · exact hcov.overflow e he
      · exact List.mem_singleton.mp he ▸ ExtentInfo.onVolume_of hpos hc hle hb
    · rw [countBlocks_append, countBlocks_cons, countBlocks_nil, hcount, Nat.add_zero]
    · rw [he]
      exact pairwise_inserted hcov.sorted hown
  case refine_2 => rw [← List.append_assoc, blockList_of (by omega) (by omega), hblocks]
  case refine_3 => simpa [lengthen, hforks, hr.forks] using hfull

omit h hfull ht hr hc in
theorem iblock_lt_of_mem (hv : ∀ e ∈ es, e.OnVolume bytes) (hr : r ∈ recordsFrom ino first es) :
    r.key.iblock < first + countBlocks es := by
  obtain ⟨before, e, behind, rfl, rfl⟩ := mem_recordsFrom hr
  have := (hv e (by simp)).count_pos
  simp only [countBlocks_append, countBlocks_cons]
  omega

-- They lie behind the last block of the file, and the last record becomes longer.
theorem Sound.extend (hcov : s.CoveredBy ino fs (es ++ [e])) (hblocks : blocks = blockList (fs ++ (es ++ [e])))
    (hstart : start = e.firstBlock + e.blockCount) (hf : s''.fsm = s'.fsm) (hforks : s''.forks = s'.forks)
    (he : s''.exttree = s'.exttree.map fun r =>
      if r = ⟨⟨ino, countBlocks fs + countBlocks es⟩, some e⟩ then
        { r with lextent := some (.of e.firstBlock (e.blockCount + cnt)) } else r) :
    (s''.lengthen ino cnt).Sound ino (blocks ++ List.range' start cnt) := by
  have hfits := h.fits ht
  have hle := ht.le hc
  have hb := h.small.bytes
  have hv := hcov.overflow e (by simp)
  have hpos := hv.first_pos
  have htotal := h.consists.total_eq
  have hcount : (ExtentInfo.of e.firstBlock (e.blockCount + cnt)).blockCount = e.blockCount + cnt :=
    ExtentInfo.blockCount_of_lt (by omega)
  let f (r : ExttreeRecord) : ExttreeRecord :=
    if r = ⟨⟨ino, countBlocks fs + countBlocks es⟩, some e⟩ then
      { r with lextent := some (.of e.firstBlock (e.blockCount + cnt)) } else r
  have hkey (r) : (f r).key = r.key := by
    simp only [f]
    split <;> rfl
  have he : s''.exttree = s.exttree.map f := by rw [he, hr.exttree]
  refine h.grow ht hr (by exact hf)
    ⟨fs, es ++ [.of e.firstBlock (e.blockCount + cnt)], ?_, ?_, fun _ => ?_⟩
  case refine_1 =>
    refine hcov.lengthen (hforks.trans hr.forks) (by rw [hf, hr.bytes]) (by omega) ?_ ?_ ?_ ?_
    · have hsame : (recordsFrom ino (countBlocks fs) es).map f = recordsFrom ino (countBlocks fs) es := by
        refine (List.map_congr_left fun r hr => if_neg ?_).trans (List.map_id' _)
        rintro rfl
        have := iblock_lt_of_mem (fun e' he' => hcov.overflow e' (by simp [he'])) hr
        simp only at this
        omega
      have hown : ((fun r : ExttreeRecord => decide (r.key.objectId = ino)) ∘ f) =
          fun r => decide (r.key.objectId = ino) := by
        funext r
        simp [hkey]
      have hrec := hcov.records
      rw [recordsOf, recordsFrom_append] at hrec
      rw [recordsOf, he, List.filter_map, hown, hrec, List.map_append, hsame, recordsFrom_append]
      simp [recordsFrom, f]
    · intro e' he
      rcases List.mem_append.mp he with he | he
      · exact hcov.overflow e' (by simp [he])
      · exact List.mem_singleton.mp he ▸ ExtentInfo.onVolume_of hpos (by omega) (by omega) hb
    · simp only [countBlocks_append, countBlocks_cons, countBlocks_nil, hcount]
      omega
    · rw [he, List.pairwise_map]
      simpa only [hkey] using hcov.sorted
  case refine_2 =>
    rw [← List.append_assoc, blockList_extend (by omega), hblocks, hstart, List.append_assoc]
  case refine_3 => simpa [lengthen, hforks, hr.forks] using hfull

end Overflow

section Search

variable {record : ExttreeRecord}

theorem served_of_ok (h : extentFind ino iblock s = .ok record s') :
    s.outcomes.head?.join = none := by
  cases ho : s.outcomes.head?.join
  case none   => rfl
  case some e => cases h.symm.trans (extentFind_fail ho)

theorem CoveredBy.found_nil (h : s.CoveredBy ino fs [])
    (hf : extentFind ino iblock s = .ok record s') : record.key.objectId ≠ ino :=
  ((wp_of_ok hf).mp (h.extentFind_nil (served_of_ok hf))).left

theorem CoveredBy.found_last (h : s.CoveredBy ino fs (es ++ [e]))
    (hf : extentFind ino (s.forks ino).totalBlockCount s = .ok record s')
    (hne : (s.forks ino).totalBlockCount ≠ iblockDoesNotMatter) :
    record = ⟨⟨ino, countBlocks fs + countBlocks es⟩, some e⟩ := by
  have htotal := h.total
  rw [countBlocks_append] at htotal
  have := h.extentFind_eq (t := s) rfl (served_of_ok hf) hne (by omega) (.inl rfl)
  cases hf.symm.trans this
  rfl

end Search

theorem exttreeAdd_inserted : (exttreeAdd ino iblock start cnt).wp
    (fun _ s' => s'.fsm = s.fsm ∧ s'.forks = s.forks ∧
      s'.exttree = inserted ⟨⟨ino, iblock⟩, some (.of start cnt)⟩ s.exttree)
    (fun _ s' => s'.fsm = s.fsm ∧ Kept s s') False s := by
  refine wp_bind.mpr (wp_mono request_spec (fun _ s₁ h₁ => ?_) (fun e _ h => h.right) id)
  simp only [wp_bind, wp_get, wp_ite, wp_fail]
  refine ⟨fun _ => h₁, fun _ => ?_⟩
  refine wp_mono request_spec (fun _ s₂ h₂ => ?_) (fun e s₂ h₂ => ?_) id
  · refine ⟨h₂.left.trans h₁.left, h₂.right.forks.trans h₁.right.forks, ?_⟩
    rw [← h₁.right.exttree, ← h₂.right.exttree]
    rfl
  · exact ⟨h₂.2.1.trans h₁.left, h₁.right.trans h₂.2.2⟩

-- The end of an attempt to get blocks for a file whose fork is full: the file is as before, or it has
-- them once its length is set.
def Overflows (ino cnt : Nat) (blocks : List Nat) (s : Expansion) (r : Nat) (s' : Expansion) : Prop :=
  (r = 0 ∧ s'.Sound ino blocks) ∨
  (0 < r ∧ s'.forks = s.forks ∧ (s'.lengthen ino cnt).Sound ino (blocks ++ List.range' r cnt))

section Attempt

variable {record : ExttreeRecord} (h : s.Sound ino blocks) (hfull : (s.forks ino).usedExtents = extentsCountInFork)
  (hc : 0 < cnt)

include h hfull hc

theorem insert_sound (ht : Took s.freeBlocks s start cnt s') (hr : Remains s s') :
    (onFail (do exttreeAdd ino (s.forks ino).totalBlockCount start cnt; pure start)
      fun _ => pure 0 : ExpandCode Nat).wp (Overflows ino cnt blocks s) (fun _ _ => False) True s' := by
  rw [wp_onFail, wp_bind]
  refine wp_mono exttreeAdd_inserted (fun _ s₁ h₁ => ?_) (fun _ s₁ h₁ => ?_) False.elim
  · exact .inr ⟨ht.pos, h₁.2.1.trans hr.forks, h.insert hfull ht hr hc h₁.1 h₁.2.1 h₁.2.2⟩
  · have hm := ht.manages
    rw [← h₁.1] at hm
    have hr' := hr.trans (.of_fsm h₁.1 h₁.2)
    exact .inl ⟨rfl, h.of_remains hr' hm (h₁.1 ▸ ht.small) Finset.sdiff_subset⟩

-- A record of the file that was found is its last one.
theorem exttreeAddAfter_sound (hown : record.key.objectId = ino →
      (s.forks ino).totalBlockCount ≠ iblockDoesNotMatter → ∃ fs es e, s.CoveredBy ino fs (es ++ [e]) ∧
      blocks = blockList (fs ++ (es ++ [e])) ∧
      record = ⟨⟨ino, countBlocks fs + countBlocks es⟩, some e⟩) :
    (exttreeAddAfter ino (s.forks ino).totalBlockCount cnt record).wp (Overflows ino cnt blocks s)
      (fun _ _ => False) True s := by
  have hsame : Overflows ino cnt blocks s 0 s := .inl ⟨rfl, h⟩
  rw [exttreeAddAfter, wp_bind, wp_get, wp_ite]
  refine ⟨fun ho => ?_, fun _ => ?_⟩
  case refine_1 =>
    split
    case h_1 => trivial
    case h_2 lextent hl =>
      rw [wp_bind]
      refine wp_imp (ask_remains h.manages h.small) ?_
      rintro r s' (⟨rfl, rfl⟩ | ⟨ht, hr⟩) <;> simp only [wp_ite, wp_pure]
      · exact ⟨fun _ => hsame, fun hne => absurd trivial hne⟩
      · refine ⟨fun he => absurd he ht.pos.ne', fun _ =>
          ⟨fun hnext => ?_, fun _ => insert_sound h hfull hc ht hr⟩⟩
        have hfits := h.fits ht
        have htotal := h.consists.total_eq
        obtain ⟨fs, es, e, hcov, hblocks, rfl⟩ := hown ho (by rw [iblockDoesNotMatter]; omega)
        cases hl
        have hin := (hcov.overflow lextent (by simp)).inside
        have hb := h.small.bytes
        rw [u64_of_lt (by omega)] at hnext
        exact .inr ⟨ht.pos, hr.forks, h.extend hfull ht hr hc hcov hblocks hnext rfl rfl rfl⟩
  case refine_2 =>
    rw [wp_bind]
    refine wp_imp (ask_remains h.manages h.small) ?_
    rintro r s' (⟨rfl, rfl⟩ | ⟨ht, hr⟩) <;> simp only [wp_ite, wp_pure]
    · exact ⟨fun _ => hsame, fun hne => absurd trivial hne⟩
    · exact ⟨fun he => absurd he ht.pos.ne', fun _ => insert_sound h hfull hc ht hr⟩

theorem exttreeAddBlock_sound (hlt : cnt < 2 ^ 32) :
    (exttreeAddBlock ino (s.forks ino).totalBlockCount cnt).wp (Overflows ino cnt blocks s)
      (fun _ _ => False) True s := by
  have hspec : (extentFind ino (s.forks ino).totalBlockCount).wp _ _ _ s := extentFind_spec
  rw [exttreeAddBlock, wp_bind, wp_onFail, wp_bind, u32_of_lt hlt]
  cases hf : extentFind ino (s.forks ino).totalBlockCount s
  case halt => exact absurd hspec (by rw [wp, hf]; exact id)
  case fail e s₁ =>
    obtain ⟨hfsm, hk⟩ := (wp_of_fail hf).mp hspec
    rw [wp_of_fail hf]
    exact .inl ⟨rfl, h.of_remains (.of_fsm hfsm hk) (hfsm ▸ h.manages) (hfsm ▸ h.small) subset_rfl⟩
  case ok record s₁ =>
    obtain ⟨hfsm, hk⟩ := (wp_of_ok hf).mp hspec
    have hr : Remains s s₁ := .of_fsm hfsm hk
    have h₁ := h.of_remains hr (hfsm ▸ h.manages) (hfsm ▸ h.small) subset_rfl
    rw [wp_of_ok hf]
    change (exttreeAddAfter ino (s.forks ino).totalBlockCount cnt record).wp _ _ _ s₁
    rw [← hk.forks] at hfull ⊢
    refine wp_imp (exttreeAddAfter_sound h₁ hfull hc fun ho hne => ?_) fun r s' ha => ?_
    case refine_1 =>
      obtain ⟨fs, es, hcov, hblocks, _⟩ := h.consists
      rcases List.eq_nil_or_concat es with rfl | ⟨es, e, rfl⟩
      · exact absurd ho (hcov.found_nil hf)
      · rw [List.concat_eq_append] at hcov hblocks
        rw [hk.forks] at hne
        exact ⟨fs, es, e, hcov.of_remains hr, hblocks, hcov.found_last hf hne⟩
    case refine_2 => rwa [Overflows, ← hk.forks]

theorem addOverflow_sound (hlt : cnt < 2 ^ 32) : (addOverflow ino cnt).wp
    (fun r s' => (r = 0 ∧ s'.Sound ino blocks) ∨ (0 < r ∧ s'.Sound ino (blocks ++ List.range' r cnt)))
    (fun _ _ => False) True s := by
  simp only [addOverflow, wp_bind, wp_get, wp_haltOn]
  refine ⟨fun _ => trivial, fun _ => ?_⟩
  refine wp_imp (exttreeAddBlock_sound h hfull hc hlt) fun r s' ha => ?_
  rw [wp_ite]
  rcases ha with ⟨rfl, h'⟩ | ⟨hpos, hforks, h'⟩
  · exact ⟨fun _ => .inl ⟨rfl, h'⟩, fun hne => absurd rfl hne⟩
  · refine ⟨fun he => absurd he hpos.ne', fun _ => .inr ⟨hpos, ?_⟩⟩
    simpa only [lengthen, hforks] using h'

end Attempt

end Records

section Growth

-- A file whose fork is not full or has all of its blocks has no records.
theorem Sound.recordsOf_eq_nil (h : s.Sound ino blocks)
    (hf : (s.forks ino).usedExtents < extentsCountInFork ∨
      ((s.forks ino).extents.toList.map (·.blockCount)).sum = (s.forks ino).totalBlockCount) :
    s.recordsOf ino = [] := by
  obtain ⟨fs, es, hcov, _, hfull⟩ := h.consists
  suffices es = [] by
    rw [hcov.records, this]
    rfl
  by_contra hne
  have hused := hfull hne
  rcases hf with hf | hf
  · omega
  · have hall : (s.forks ino).extents.toList = fs := by
      rw [← hcov.fork, ForkInfo.inUse, hused, List.take_of_length_le (by simp)]
    refine hne (eq_nil_of_countBlocks hcov.overflow ?_)
    have htotal := hcov.total
    rw [← hf, hall, countBlocks] at htotal
    omega

theorem findNewBlock_sound (h : s.Sound ino blocks) (hc : 0 < cnt) (hlt : cnt < 2 ^ 32) :
    (findNewBlock ino iblock cnt).wp (fun block s' =>
      (block = 0 ∧ s'.Sound ino blocks) ∨ ∃ start, 0 < start ∧
        block = u64 (start + u64Sub iblock blocks.length) ∧
        s'.Sound ino (blocks ++ List.range' start cnt)) (fun _ _ => False) True s := by
  have htotal := h.consists.total_eq
  have hfull (hf : ¬(s.forks ino).usedExtents < extentsCountInFork) :
      (s.forks ino).usedExtents = extentsCountInFork := by
    obtain ⟨fs, es, hcov, _⟩ := h.consists
    have := hcov.used
    omega
  have hdone (start : Nat) (s' : Expansion) (hs : (start = 0 ∧ s'.Sound ino blocks) ∨
      (0 < start ∧ s'.Sound ino (blocks ++ List.range' start cnt))) :
      (if start = 0 then pure 0 else
        pure (u64 (start + u64Sub iblock (s.forks ino).totalBlockCount)) : ExpandCode Nat).wp
      (fun block s' => (block = 0 ∧ s'.Sound ino blocks) ∨ ∃ start, 0 < start ∧
        block = u64 (start + u64Sub iblock blocks.length) ∧
        s'.Sound ino (blocks ++ List.range' start cnt)) (fun _ _ => False) True s' := by
    rw [wp_ite, htotal]
    rcases hs with ⟨rfl, hs⟩ | ⟨hpos, hs⟩
    · exact ⟨fun _ => .inl ⟨rfl, hs⟩, fun hne => absurd rfl hne⟩
    · exact ⟨fun he => absurd he hpos.ne', fun _ => .inr ⟨start, hpos, rfl, hs⟩⟩
  simp only [findNewBlock, wp_bind, wp_get, wp_ite, wp_onFail]
  refine ⟨fun hu => ?_, fun hu => ⟨fun hsum => ?_, fun _ => ?_⟩⟩
  case refine_1 =>
    exact wp_mono (expandFork_sound h (h.recordsOf_eq_nil (.inl hu)) hc hlt)
      (fun r s' h' => hdone r s' (.inr h')) (fun _ s' h' => hdone 0 s' (.inl ⟨rfl, h'.left⟩)) id
  case refine_2 =>
    refine wp_mono (expandFork_sound h (h.recordsOf_eq_nil (.inr hsum)) hc hlt)
      (fun r s' h' => hdone r s' (.inr h')) (fun e s₁ h₁ => ?_) id
    rw [wp_ite]
    refine ⟨fun _ => ?_, fun _ => hdone 0 s₁ (.inl ⟨rfl, h₁.left⟩)⟩
    exact wp_imp (addOverflow_sound h₁.left (h₁.right.forks ▸ hfull hu) hc hlt) hdone
  case refine_3 => exact wp_imp (addOverflow_sound h (hfull hu) hc hlt) hdone

theorem Sound.lt_of_append (h : s.Sound ino (blocks ++ List.range' start cnt)) (hc : 0 < cnt) :
    start < 2 ^ 32 := by
  have := h.small.bytes
  have hmem : start ∈ blocks ++ List.range' start cnt :=
    List.mem_append_right _ (List.mem_range'_1.mpr ⟨le_rfl, by omega⟩)
  have := h.consists.mem hmem
  omega

-- A request that succeeds is large enough, and the block is the one for `iblock` if it reaches it.
theorem expandLoop_sound (h : s.Sound ino blocks) (hg : g < 31) (hd : 2 ^ g ∣ expandReq)
    (hge : 2 ^ g ≤ expandReq) (hlt : expandReq < 2 ^ 32)
    (hdelta : u64Sub iblock blocks.length < 2 ^ 63) :
    (expandLoop ino iblock expandMin g turns expandReq).wp
      (fun block s' => ∃ start cnt, max expandMin (2 ^ g) ≤ cnt ∧
        block = start + u64Sub iblock blocks.length ∧ s'.Sound ino (blocks ++ List.range' start cnt))
      (fun _ _ => True) True s := by
  have hpow : 2 ^ g ≤ 2 ^ 30 := Nat.pow_le_pow_right (by decide) (by omega)
  have hpos := Nat.two_pow_pos g
  induction turns generalizing expandReq s
  case zero => trivial
  case succ turns ih =>
    simp only [expandLoop, wp_ite, wp_bind, wp_fail]
    refine ⟨fun hmin => ?_, fun _ => trivial⟩
    refine wp_mono (findNewBlock_sound h (by omega) hlt) ?_ (fun _ _ => False.elim) id
    rintro block s₁ (⟨rfl, h₁⟩ | ⟨start, hstart, rfl, h₁⟩)
    case inl =>
      refine wp_ite.mpr ⟨fun hne => absurd rfl hne, fun _ => wp_ite.mpr ⟨fun _ => trivial, fun hhalf => ?_⟩⟩
      rw [Nat.shiftRight_one] at hhalf ⊢
      have := le_alignUp (v := expandReq / 2) (g := g) (by omega)
      have := alignUp_le hd (v := expandReq / 2) (by omega) (by omega)
      exact ih h₁ dvd_alignUp (by omega) (by omega)
    case inr =>
      have := h₁.lt_of_append (by omega)
      rw [u64_of_lt (by omega)]
      refine wp_ite.mpr ⟨fun _ => ⟨start, expandReq, max_le hmin hge, rfl, h₁⟩, fun he => ?_⟩
      omega

theorem expandFile_sound (h : s.Sound ino blocks) (hle : blocks.length ≤ iblock)
    (hlt : iblock < 2 ^ 64) (hcov : Covers ino iblock s) :
    (expandFile ino iblock).wp (fun block s' => ∃ more, s'.Sound ino (blocks ++ more) ∧
      (blocks ++ more)[iblock]? = some block) (fun _ _ => True) True s := by
  have htotal := h.consists.total_eq
  have hcard := card_lt h.manages h.small
  have hgran : 2 ^ granLog2 ino s ≤ 2 ^ 30 := two_pow_granLog2_le h.log
  have hreach := Covers.lt (by omega) hlt hcov
  rw [wp_expandFile, h.manages.count]
  refine ⟨fun _ => trivial, fun hfree => ?_⟩
  have hdist : iblock - (s.forks ino).totalBlockCount < 2 ^ 32 := by omega
  obtain ⟨hge, hreq, _⟩ := firstRequest_spec (htotal ▸ hle) hlt h.log h.total (by omega) (by omega)
  have hdelta : u64Sub iblock blocks.length = iblock - blocks.length := u64Sub_of_le hle hlt
  refine wp_imp (expandLoop_sound h (granLog2_lt h.log) dvd_alignUp hge hreq (by omega)) ?_
  rintro block s' ⟨start, cnt, hcnt, rfl, h'⟩
  refine ⟨_, h', ?_⟩
  rw [List.getElem?_append_right hle, List.getElem?_range' (by omega), hdelta, Nat.one_mul]

end Growth

section Lookup

theorem Sound.next (h : s.Sound ino blocks) : s.next.Sound ino blocks :=
  h.of_remains (.of_fsm rfl ⟨rfl, rfl, List.tail_suffix _⟩) h.manages h.small subset_rfl

-- A block of the file is found, unless a request of the extents tree fails.
theorem findOldBlock_sound (h : s.Sound ino blocks) (hi : blocks[iblock]? = some block) :
    (findOldBlock ino iblock).wp (fun r s' => s'.Sound ino blocks ∧ (r = none ∨ r = some block))
      (fun _ _ => False) False s := by
  obtain ⟨fs, es, hcov, rfl, _⟩ := h.consists
  have hb := h.small.bytes
  have hlen := (List.getElem?_eq_some_iff.mp hi).choose
  have htotal := hcov.total
  have hlt := (s.forks ino).total_lt
  simp only [length_blockList, countBlocks_append] at hlen
  rw [findOldBlock, wp_bind, wp_get]
  simp only [findInFork_eq hb (hcov.fork ▸ hcov.volume) le_rfl, Nat.sub_self, List.drop_zero, hcov.fork]
  by_cases hf : iblock < countBlocks fs
  case pos =>
    rw [blockList_append, List.getElem?_append_left (by simpa using hf)] at hi
    rw [hi]
    exact ⟨h, .inr rfl⟩
  case neg =>
    rw [List.getElem?_eq_none (by simpa using hf)]
    change (exttreeGetBlock ino iblock).wp _ _ _ s
    rw [exttreeGetBlock, wp_onFail, wp_bind]
    cases hr : s.outcomes.head?.join
    case some e =>
      rw [wp_of_fail (extentFind_fail hr)]
      exact ⟨h.next, .inl rfl⟩
    case none =>
      obtain ⟨before, e, behind, rfl, hle, hlt'⟩ :=
        exists_extent (show iblock - countBlocks fs < countBlocks es by omega)
      have hne : iblock ≠ iblockDoesNotMatter := by
        rw [iblockDoesNotMatter]
        omega
      have hin := (hcov.overflow e (by simp)).inside
      have hcount : countBlocks (fs ++ before) = countBlocks fs + countBlocks before :=
        countBlocks_append
      rw [← List.append_assoc, getElem?_blockList (by omega) (by omega), hcount] at hi
      rw [wp_of_ok (hcov.extentFind_eq rfl hr hne (by omega) (.inr (by omega))), wp_ite]
      refine ⟨fun _ => ⟨h.next, .inr ?_⟩, fun hne => absurd rfl hne⟩
      change some (u64 (e.firstBlock + u64Sub iblock (countBlocks fs + countBlocks before))) = _
      rw [← hi, u64Sub_of_le (by omega) (by omega), u64_of_lt (by omega)]

theorem Sound.isBlock_iff (h : s.Sound ino blocks) :
    IsBlock ino iblock block s ↔ blocks[iblock]? = some block := by
  obtain ⟨fs, es, hcov, hblocks, _⟩ := h.consists
  have hold {b : Nat} (hb : blocks[iblock]? = some b) : s.OldBlock ino iblock b :=
    hcov.oldBlock h.small.bytes (hblocks ▸ hb)
  rw [IsBlock, h.consists.total_eq]
  constructor
  case mp =>
    rintro ⟨hlt, ho⟩
    have hb := List.getElem?_eq_getElem hlt
    cases ho.symm.trans (hold hb)
    exact hb
  case mpr =>
    intro hb
    exact ⟨(List.getElem?_eq_some_iff.mp hb).choose, hold hb⟩

end Lookup

end Expansion

namespace BlockMap

open Expansion

variable {s : BlockMap} {blocks : List Nat}

-- The end of emmcfs_get_block.
theorem mapBlock_volume (finished : Bool) (block : Nat) (alloc : Bool) :
    (mapBlock finished block alloc).wp
      (fun m s' => m.map (·.block) = some block ∧ s'.volume = s.volume) (fun _ _ => True) True s := by
  simp only [mapBlock, wp_bind, wp_get, wp_ite, wp_halt, wp_fail]
  exact ⟨fun _ => ⟨fun _ => trivial, fun _ => trivial⟩, fun _ => ⟨rfl, rfl⟩⟩

theorem writeInodeToBnode_volume : writeInodeToBnode.wp (fun _ s' => s'.volume = s.volume)
    (fun _ _ => True) True s := by
  simp only [writeInodeToBnode, wp_bind, wp_get]
  rcases s.writes with _ | ⟨_ | e, _⟩
  · exact rfl
  · exact rfl
  · trivial

-- What emmcfs_get_block maps is the block of the file, and no block of it moves.
theorem getBlock_sound (h : s.volume.Sound ino blocks) (hlt : iblock < 2 ^ 64)
    (hr : iblock < blocks.length ∨ Covers ino iblock s.volume) :
    (getBlock ino iblock true).wp (fun m s' => ∃ more block, s'.volume.Sound ino (blocks ++ more) ∧
      m.map (·.block) = some block ∧ (blocks ++ more)[iblock]? = some block) (fun _ _ => True) True s := by
  have htotal := h.consists.total_eq
  simp only [getBlock, wp_bind, wp_get, wp_ite, wp_haltOn, if_true, expandFile, onVolume, wp_zoom, wp_fail]
  refine ⟨fun hle => ⟨fun _ => trivial, fun _ => ?_⟩, fun hn => ?_⟩
  case refine_1 =>
    have hcov := hr.resolve_left (by omega)
    refine wp_mono (Expansion.expandFile_sound h (by omega) hlt hcov) ?_ (fun _ _ _ => trivial) id
    rintro block v ⟨more, hv, hb⟩
    -- the write of the inode leaves the volume as it is
    have hmap (s' : BlockMap) (hs : s'.volume = v) :
        (mapBlock s.volume.fsm.isMountFinished block true).wp (fun m s' => ∃ more block,
          s'.volume.Sound ino (blocks ++ more) ∧ m.map (·.block) = some block ∧
          (blocks ++ more)[iblock]? = some block) (fun _ _ => True) True s' :=
      wp_imp (mapBlock_volume ..) fun m s'' hm => ⟨more, block, by rw [hm.right, hs]; exact hv, hm.left, hb⟩
    exact ⟨fun _ => wp_imp writeInodeToBnode_volume fun _ s' hs => hmap s' hs, fun _ => hmap _ rfl⟩
  case refine_2 =>
    have hb := List.getElem?_eq_getElem (show iblock < blocks.length by omega)
    refine wp_mono (findOldBlock_sound h hb) ?_ (fun _ _ _ => trivial) False.elim
    rintro r v ⟨hv, rfl | rfl⟩
    · exact ⟨fun _ => trivial, fun hne => absurd rfl hne⟩
    · refine ⟨fun _ => trivial, fun _ => ?_⟩
      refine wp_imp (mapBlock_volume ..) fun m s' hm => ⟨[], _, ?_, hm.left, ?_⟩
      · rw [List.append_nil, hm.right]
        exact hv
      · rw [List.append_nil, hb]
        rfl

end BlockMap

end Emmcfs
