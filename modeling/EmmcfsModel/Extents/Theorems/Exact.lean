import EmmcfsModel.Extents.Theorems.Truncate
import EmmcfsModel.Fsm.Theorems.Assertions

namespace Emmcfs.Expansion

open Code

-- The file is left with its blocks before the logical block `n`, and the others are free.
def Cut (ino n : Nat) (fs es : List ExtentInfo) (s s' : Expansion) : Prop :=
  ∃ fs' es', s'.CoveredBy ino fs' es' ∧
    blockList (fs' ++ es') = (blockList (fs ++ es)).take n ∧
    s.fsm.Freed ((blockList (fs ++ es)).drop n) s'.fsm

variable {s s' : Expansion} {fs es : List ExtentInfo}

section Exactness

theorem CoveredBy.total_eq (h : s.CoveredBy ino fs es) :
    (s.forks ino).totalBlockCount = (blockList (fs ++ es)).length := by
  rw [h.total, length_blockList, countBlocks_append]

theorem Cut.exact (h : s.CoveredBy ino fs es) (hsm : s.fsm.Small) (hc : Cut ino n fs es s s') :
    Exact ino n s s' := by
  obtain ⟨fs', es', h', hb, hf⟩ := hc
  refine ⟨?_, ⟨_, ?_, hf⟩, fun i hi => ?_, fs', es', h'⟩
  · rw [h'.total_eq, hb, List.length_take, h.total_eq, Nat.min_comm]
  · rw [List.forall₂_iff_get]
    refine ⟨by rw [List.length_range', List.length_drop, h.total_eq], fun i h₁ h₂ => ?_⟩
    refine h.oldBlock hsm.bytes ?_
    simp
  · rw [h.total_eq] at hi
    have hget : (blockList (fs ++ es))[i]? = some ((blockList (fs ++ es)).get ⟨i, by omega⟩) := by simp
    refine ⟨_, h.oldBlock hsm.bytes hget, h'.oldBlock hf.small.bytes ?_⟩
    rw [hb, List.getElem?_take_of_lt (by omega), hget]

-- A file that has been cut has no record behind the cut.
theorem Exact.not_overlooked (h : Exact ino n s s') : ¬s'.Overlooked ino n := by
  obtain ⟨fs, es, hc⟩ := h.covered
  have htotal := h.total
  rw [hc.total] at htotal
  exact hc.not_overlooked (by omega)

end Exactness

section Stages

theorem truncateExttree_spec (h : s.CoveredBy ino fs es) (hsm : s.fsm.Small) :
    (truncateExttree ino rounds n).wp (fun _ s' =>
      (s.next.Served (recordRequests n (recordsFrom ino (countBlocks fs) es)) →
        Trimmed ino n fs es s s') ∧
      (¬s.next.Served (recordRequests n (recordsFrom ino (countBlocks fs) es)) →
        s'.Overlooked ino n)) (fun _ _ => True) True s := by
  rw [truncateExttree, wp_bind, wp_onFail]
  cases hr : s.outcomes.head?.join
  case none   => exact (wp_of_ok (request_ok hr)).mpr (truncateLoop_spec h.next hsm)
  case some e => exact (wp_of_fail (request_fail hr)).mpr trivial

-- If the fork has all blocks then nothing is done.
theorem truncateOverflow_spec (h : s.CoveredBy ino fs es) (hsm : s.fsm.Small) :
    (truncateOverflow ino rounds n).wp (fun _ s' =>
      (s.next.Served (recordRequests n (recordsFrom ino (countBlocks fs) es)) →
        Trimmed ino n fs es s s') ∧
      (¬s.next.Served (recordRequests n (recordsFrom ino (countBlocks fs) es)) →
        s'.Overlooked ino n)) (fun _ _ => True) True s := by
  have htotal := h.total
  have hlt := (s.forks ino).total_lt
  have hstart : (s.forks ino).startOf (s.forks ino).usedExtents = countBlocks fs := by
    rw [← h.fork]
    rfl
  simp only [truncateOverflow, wp_bind, wp_get]
  rw [wp_ite, hstart, u64_of_lt (by omega)]
  refine ⟨fun _ => truncateExttree_spec h hsm, fun hall => ?_⟩
  have hnil : es = [] := eq_nil_of_countBlocks h.overflow (by omega)
  exact ⟨fun _ => h.trimmed hsm rfl (.inl hnil), fun hserved =>
    absurd (by rw [hnil]; exact served_zero) hserved⟩

theorem truncateExtents_exttree :
    (truncateExtents ino n i).wp (fun _ s' => s'.exttree = s.exttree) (fun _ _ => True) True s := by
  induction i generalizing s
  case zero => rfl
  case succ i ih =>
    have hput {start len : Nat} : (onFsm (fsmPutFreeBlock start len)).wp
        (fun _ s' => s'.exttree = s.exttree) (fun _ _ => True) True s := by
      rw [onFsm, wp_zoom]
      exact wp_imp wp_trivial (fun _ _ _ => rfl)
    simp only [truncateExtents, wp_bind, wp_get]
    split
    case h_2 => trivial
    case h_1 last e _ _ =>
      rw [wp_ite]
      refine ⟨fun _ => ?_, fun _ => wp_bind.mpr ?_⟩
      · refine wp_bind.mpr (wp_imp hput (fun _ s₁ h₁ => ?_))
        refine wp_bind.mpr (wp_modify.mpr (wp_ite.mpr ⟨fun _ => h₁, fun _ => ?_⟩))
        exact wp_imp ih (fun _ _ h₂ => h₂.trans h₁)
      · exact wp_imp hput (fun _ _ h₁ => h₁)

-- truncate_fork on a file whose blocks are all in the fork, or with a negative size.
theorem truncateFork_spec {n : Int} (h : s.CoveredBy ino fs es) (hsm : s.fsm.Small)
    (hn : n < (s.forks ino).totalBlockCount) (hes : es = [] ∨ n < 0) :
    (truncateFork ino n).wp (fun _ s' => ∃ fs', s'.ForkHolds ino fs' (countBlocks es) ∧
      blockList fs' = (blockList fs).take n.toNat ∧
      s.fsm.Freed ((blockList fs).drop n.toNat) s'.fsm ∧ s'.exttree = s.exttree)
      (fun _ _ => True) True s := by
  rw [truncateFork, wp_bind, wp_get, h.usedExtents_eq]
  have htotal := h.total
  refine truncateExtents_spec h.toForkHolds hsm (by omega) (hes.imp_left fun he => ?_)
  rw [he, countBlocks_nil]

theorem Trimmed.cut (h : Trimmed ino n fs es s s') (hn : countBlocks fs ≤ n) :
    Cut ino n fs es s s' := by
  obtain ⟨es', hc, hb, hf⟩ := h
  have hlen : (blockList fs).length ≤ n := by rwa [length_blockList]
  refine ⟨fs, es', hc, ?_, ?_⟩
  · rw [blockList_append, blockList_append, List.take_append, List.take_of_length_le hlen, hb,
      length_blockList]
  · rwa [blockList_append, List.drop_append, List.drop_of_length_le hlen, List.nil_append,
      length_blockList]

-- If the cut lies in the fork then nothing is left in the tree, and the fork is cut.
theorem Trimmed.truncateFork_spec (h : Trimmed ino n fs es s s') (hn : n < countBlocks fs) :
    (truncateFork ino n).wp (fun _ s'' => Cut ino n fs es s s'') (fun _ _ => True) True s' := by
  obtain ⟨es', hc, hb, hf⟩ := h
  rw [Nat.sub_eq_zero_of_le hn.le] at hb hf
  have hnil : es' = [] := eq_nil_of_countBlocks hc.overflow (by rw [← length_blockList, hb]; rfl)
  subst hnil
  have htotal := hc.total
  refine wp_imp (Expansion.truncateFork_spec hc hf.small (by omega) (.inl rfl)) ?_
  rintro _ s'' ⟨fs', hfork, hb', hf', ht⟩
  rw [Int.toNat_natCast] at hb' hf'
  have hle : n ≤ (blockList fs).length := by
    rw [length_blockList]
    exact hn.le
  refine ⟨fs', [], ⟨hfork, ?_, by simp, ht ▸ hc.sorted⟩, ?_, ?_⟩
  · rw [recordsOf, ht]
    exact hc.records
  · rw [List.append_nil, hb', blockList_append, List.take_append_of_le_length hle]
  · rw [blockList_append, List.drop_append_of_le_length hle]
    exact hf'.append hf

-- The file is cut if the requests for the records behind the cut succeed. Otherwise one of the
-- records is left.
theorem truncateTo_spec {n : Nat} (h : s.CoveredBy ino fs es) (hsm : s.fsm.Small)
    (hn : n < 2 ^ 64) :
    (truncateTo ino rounds n).wp (fun _ s' =>
      (s.next.Served (recordRequests n (s.recordsOf ino)) → Cut ino n fs es s s') ∧
      (¬s.next.Served (recordRequests n (s.recordsOf ino)) → s'.Overlooked ino n))
      (fun _ _ => True) True s := by
  have htotal := h.total
  have hcast : ((n : Int) % 2 ^ 64).toNat = n := by omega
  simp only [truncateTo, wp_bind, wp_get, hcast, h.records]
  rw [wp_ite]
  refine ⟨fun hle => ?_, fun hgt => ?_⟩
  case refine_1 =>
    refine ⟨fun _ => (h.trimmed hsm rfl (.inr (by omega))).cut (by omega), fun hserved => ?_⟩
    rw [recordRequests_of_le h.overflow (by omega)] at hserved
    exact absurd served_zero hserved
  case refine_2 =>
    refine wp_bind.mpr (wp_imp (truncateOverflow_spec h hsm) ?_)
    rintro _ s₁ ⟨hok, hbad⟩
    simp only [wp_bind, wp_get, wp_ite]
    by_cases hserved : s.next.Served (recordRequests n (recordsFrom ino (countBlocks fs) es))
    case pos =>
      have htrim := hok hserved
      obtain ⟨es', hc, hb, hf⟩ := hok hserved
      have hcount := congrArg List.length hb
      have htotal' := hc.total
      rw [List.length_take, length_blockList, length_blockList] at hcount
      simp only [hserved, not_true_eq_false, false_implies, and_true, true_implies]
      exact ⟨fun hle => htrim.cut (by omega), fun hgt => htrim.truncateFork_spec (by omega)⟩
    case neg =>
      simp only [hserved, not_false_eq_true, false_implies, true_and, true_implies]
      refine ⟨fun _ => hbad hserved, fun _ => ?_⟩
      refine wp_imp truncateExtents_exttree (fun _ s₂ ht => ?_)
      obtain ⟨r, hr, hrest⟩ := hbad hserved
      exact ⟨r, ht ▸ hr, hrest⟩

-- With a negative size the records are left alone and the whole fork becomes free.
theorem truncateTo_negative {n : Int} (h : s.CoveredBy ino fs es) (hsm : s.fsm.Small) (hn : n < 0)
    (hmin : -2 ^ 63 ≤ n) :
    (truncateTo ino rounds n).wp (fun _ s' =>
      (s'.forks ino).totalBlockCount = countBlocks es ∧
      (fs = [] → ∀ m, countBlocks es ≤ m → Cut ino m fs es s s'))
      (fun _ _ => True) True s := by
  have htotal := h.total
  have hlt := (s.forks ino).total_lt
  have hlong : countBlocks fs + countBlocks es ≤ (n % 2 ^ 64).toNat := by omega
  simp only [truncateTo, wp_bind, wp_get]
  rw [wp_ite]
  refine ⟨fun hle => by omega, fun _ => ?_⟩
  refine wp_bind.mpr (wp_imp (truncateOverflow_spec h hsm) ?_)
  rintro _ s₁ ⟨hok, _⟩
  obtain ⟨es', hc, hb, hf⟩ := hok (by rw [recordRequests_of_le h.overflow hlong]; exact served_zero)
  have hlen : (blockList es).length ≤ (n % 2 ^ 64).toNat - countBlocks fs := by
    rw [length_blockList]
    omega
  rw [List.take_of_length_le hlen] at hb
  rw [List.drop_of_length_le hlen] at hf
  have hcount : countBlocks es' = countBlocks es := by rw [← length_blockList, hb, length_blockList]
  have htotal' := hc.total
  simp only [wp_bind, wp_get, wp_ite]
  refine ⟨fun hle => by omega, fun _ => ?_⟩
  refine wp_imp (truncateFork_spec hc hf.small (by omega) (.inr hn)) ?_
  rintro _ s' ⟨fs', hfork, hb', hf', ht⟩
  rw [Int.toNat_of_nonpos hn.le] at hb' hf'
  have hnil : fs' = [] := eq_nil_of_countBlocks hfork.volume (by rw [← length_blockList, hb']; rfl)
  subst hnil
  refine ⟨by rw [hfork.total, hcount, countBlocks_nil, Nat.zero_add], ?_⟩
  rintro rfl m hm
  have hall : (blockList es).length ≤ m := by rwa [length_blockList]
  refine ⟨[], es', ⟨hfork, ?_, hf'.size.bytes ▸ hc.overflow, ht ▸ hc.sorted⟩, ?_, ?_⟩
  · rw [recordsOf, ht]
    exact hc.records
  · rw [List.nil_append, List.nil_append, hb, List.take_of_length_le hall]
  · rw [List.nil_append, List.drop_of_length_le hall]
    exact hf'.append hf

end Stages

section Blocks

variable {blockSize : BlockSize} {size : Nat}

-- A successful truncation is exact if the size does not overflow when it is rounded, or the fork is
-- empty, and no request for a record behind the new end fails. Otherwise it is not.
theorem exact_iff (h : s.CoveredBy ino fs es) (hsm : s.fsm.Small) (hsize : size < 2 ^ 63)
    (hok : truncateTo ino rounds (s64 (size + 2 ^ blockSize.shift - 1) >>> blockSize.shift) s =
      .ok () s') :
    Exact ino (blocksFor blockSize size) s s' ↔
      ((s.forks ino).usedExtents = 0 ∨ size + 2 ^ blockSize.shift ≤ 2 ^ 63) ∧
      s.next.Served (recordRequests (blocksFor blockSize size) (s.recordsOf ino)) := by
  have htotal := h.total
  have hlt := (s.forks ino).total_lt
  have hpow := two_pow_shift_le blockSize
  by_cases hover : size + 2 ^ blockSize.shift ≤ 2 ^ 63
  case pos =>
    have hn : blocksFor blockSize size < 2 ^ 64 := by
      have := Nat.div_le_self (size + 2 ^ blockSize.shift - 1) (2 ^ blockSize.shift)
      rw [blocksFor]
      omega
    rw [rounded_of_le hover] at hok
    obtain ⟨hcut, hleft⟩ := wp_ok (truncateTo_spec h hsm hn) hok
    constructor
    case mp  => exact fun he => ⟨.inr hover, Classical.byContradiction fun hs =>
      he.not_overlooked (hleft hs)⟩
    case mpr => exact fun hs => (hcut hs.right).exact h hsm
  case neg =>
    have hmore : (s.forks ino).totalBlockCount ≤ blocksFor blockSize size := by
      rw [blocksFor, Nat.le_div_iff_mul_le (Nat.two_pow_pos _)]
      calc (s.forks ino).totalBlockCount * 2 ^ blockSize.shift
        _ ≤ 2 ^ 32 * 2 ^ 12 := Nat.mul_le_mul hlt.le hpow
        _ ≤ size + 2 ^ blockSize.shift - 1 := by omega
    obtain ⟨hmin, hneg⟩ := rounded_of_gt (Nat.lt_of_not_le hover) hsize
    obtain ⟨htotal', hcut⟩ := wp_ok (truncateTo_negative h hsm hneg hmin) hok
    have hzero : recordRequests (blocksFor blockSize size) (s.recordsOf ino) = 0 := by
      rw [h.records]
      exact recordRequests_of_le h.overflow (by omega)
    rw [hzero, h.usedExtents_eq, List.length_eq_zero_iff]
    constructor
    case mp  =>
      intro he
      have := he.total
      refine ⟨.inl (eq_nil_of_countBlocks h.volume ?_), served_zero⟩
      omega
    case mpr => exact fun hnil =>
      (hcut (hnil.left.resolve_right hover) _ (by omega)).exact h hsm

theorem length_recordsFrom : (recordsFrom ino start es).length = es.length := by
  induction es generalizing start <;> simp_all [recordsFrom]

-- The loop needs no more rounds than there are records, and two.
theorem truncateTo_rounds (h : s.CoveredBy ino fs es) (hsm : s.fsm.Small)
    (hr : s.exttree.length + 2 ≤ rounds) :
    truncateTo ino (rounds + k) n s = truncateTo ino rounds n s := by
  have hlen : es.length ≤ s.exttree.length := by
    rw [← length_recordsFrom, ← h.records]
    exact List.length_filter_le ..
  obtain ⟨more, rfl⟩ := Nat.exists_eq_add_of_le (show es.length + 2 ≤ rounds by omega)
  have hloop (n k : Nat) : loop (truncateRound ino n) (es.length + 2 + more + k) s.next =
      loop (truncateRound ino n) (es.length + 2 + more) s.next := by
    have hends := truncateLoop_ends (n := n) h.next hsm
    rw [Nat.add_assoc, hends.loop_add, hends.loop_add]
  have htree (n : Nat) : truncateOverflow ino (es.length + 2 + more + k) n s =
      truncateOverflow ino (es.length + 2 + more) n s := by
    simp only [truncateOverflow, get_bind, ite_run, truncateExttree]
    cases hq : s.outcomes.head?.join
    case none =>
      have hkey : onFail request (fun _ => Code.fail .enomem) s = .ok () s.next := by
        rw [onFail, request_ok hq]
      rw [bind_of_ok hkey, bind_of_ok hkey, hloop]
    case some e =>
      have hkey : onFail request (fun _ => Code.fail .enomem) s = .fail .enomem s.next := by
        rw [onFail, request_fail hq]
        rfl
      rw [bind_of_fail hkey, bind_of_fail hkey]
  simp only [truncateTo, get_bind, ite_run]
  change (if _ then _ else Code.bind _ _ s) = if _ then _ else Code.bind _ _ s
  simp only [Code.bind, htree]

end Blocks

-- A file with nine extents of one block in its fork and one more block in the extents tree, on a full
-- volume of forty blocks.
def tenBlocks (outcomes : List (Option Errno)) : Expansion where
  forks _        := .full
  fsm            := fullVolume 5 1
  freeSpaceStart := 4
  exttree        := [⟨⟨firstFileIno, 9⟩, some (.of 30 1)⟩]
  outcomes       := outcomes

theorem tenBlocks_covered (os : List (Option Errno)) : (tenBlocks os).Covered firstFileIno := by
  have hv : ∀ e ∈ ((tenBlocks []).forks firstFileIno).inUse,
      0 < e.firstBlock ∧ 0 < e.blockCount ∧ e.firstBlock + e.blockCount ≤ 40 := by decide
  have hr : (ExtentInfo.of 30 1).OnVolume 5 := ⟨by decide, by decide, by decide⟩
  exact ⟨_, [.of 30 1], {
    used     := le_refl 9
    fork     := rfl
    total    := rfl
    volume   := fun e he => ⟨(hv e he).1, (hv e he).2.1, (hv e he).2.2⟩
    records  := rfl
    overflow := fun e he => List.mem_singleton.mp he ▸ hr
    sorted   := List.pairwise_singleton .. }⟩

def fourKb : BlockSize := .page

end Emmcfs.Expansion
