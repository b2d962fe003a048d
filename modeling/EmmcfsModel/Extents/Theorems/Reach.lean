import EmmcfsModel.Extents.Theorems.Growth
import EmmcfsModel.Extents.Theorems.NoSpace

namespace Emmcfs.Expansion

open Code

variable {s s' : Expansion} {free : Finset Nat} {g : Nat}

section Halving

-- Every request is at most half as large as the one before, in units of the granularity.
theorem expandLoop_turns (ht : g + t ≤ 64) (hd : 2 ^ g ∣ expandReq) (hle : expandReq ≤ 2 ^ (g + t))
    (hturns : t < turns) : expandLoop ino iblock expandMin g turns expandReq =
      expandLoop ino iblock expandMin g (t + 1) expandReq := by
  induction t generalizing turns expandReq
  case zero =>
    obtain ⟨n, rfl⟩ := Nat.exists_eq_add_of_lt hturns
    have hpos := Nat.two_pow_pos g
    have hhalf : expandReq >>> 1 < 2 ^ g := by
      rw [Nat.shiftRight_one]
      rw [Nat.add_zero] at hle
      omega
    simp only [expandLoop, hhalf, if_true]
  case succ t ih =>
    obtain ⟨n, rfl⟩ := Nat.exists_eq_add_of_lt hturns
    have hnext : alignUp (expandReq >>> 1) g ≤ 2 ^ (g + t) := by
      rw [Nat.shiftRight_one]
      refine alignUp_le (Nat.pow_dvd_pow 2 (by omega)) ?_ ?_
      · rw [← Nat.add_assoc, Nat.pow_succ] at hle
        omega
      · have h₁ : 2 ^ (g + t) ≤ 2 ^ 63 := Nat.pow_le_pow_right (by decide) (by omega)
        have h₂ : 2 ^ g ≤ 2 ^ 63 := Nat.pow_le_pow_right (by decide) (by omega)
        omega
    have heq := ih (by omega) dvd_alignUp hnext (show t < t + 1 + n by omega)
    rw [expandLoop, expandLoop, heq]

end Halving

section Reach

theorem alignUp_lt (h : v + 2 ^ g ≤ 2 ^ 64) : alignUp v g < v + 2 ^ g := by
  have hk := Nat.two_pow_pos g
  simp only [alignUp]
  rw [u64_of_lt (by omega)]
  omega

-- What a file that has grown can be asked.
theorem Grew.reached_iff (h : s.fsm.Manages free) (hsm : s.fsm.Small)
    (hle : (s.forks ino).totalBlockCount ≤ iblock) (hlt : iblock < 2 ^ 64)
    (hfit : (s.forks ino).totalBlockCount + free.card < 2 ^ 32)
    (hg : Grew ino iblock lo hi free s block s') :
    ∃ cnt, lo ≤ cnt ∧ cnt ≤ hi ∧ ((iblock < (s'.forks ino).totalBlockCount ∧
      testBit s.fsm.data block = false ∧ testBit s'.fsm.data block) ↔
      iblock - (s.forks ino).totalBlockCount < cnt) := by
  obtain ⟨cnt, start, free', hlo, hhi, hsub, ht, hl, rfl⟩ := hg
  refine ⟨cnt, hlo, hhi, ?_⟩
  have hcard : cnt ≤ free.card := by
    have := Finset.card_le_card (ht.subset.trans hsub)
    rwa [Nat.card_Ico, Nat.add_sub_cancel_left] at this
  rw [hl, u32_of_lt (by omega), u64Sub_of_le hle hlt]
  constructor
  case mp  => exact fun ⟨hreach, _⟩ => by omega
  case mpr =>
    intro hd
    have hmem : start + (iblock - (s.forks ino).totalBlockCount) ∈ Finset.Ico start (start + cnt) :=
      Finset.mem_Ico.mpr ⟨by omega, by omega⟩
    have hfree := hsub (ht.subset hmem)
    have hx := Frees.lt h hsm hfree
    have hin (x) (hx : x ∈ free') : x < 8 * s.fsm.lengthInBytes :=
      (mem_clearBits.mp (h.bits ▸ hsub hx)).left
    rw [u64_of_lt (by omega)]
    exact ⟨by omega, (mem_clearBits.mp (h.bits ▸ hfree)).right, (ht.used hin hmem).right⟩

theorem wp_expandFile : (expandFile ino iblock).wp Q E H s ↔
    (s.fsm.freeBlocksCount < minRequest ino iblock s → E .enospc s) ∧
    (¬s.fsm.freeBlocksCount < minRequest ino iblock s →
      (expandLoop ino iblock (minRequest ino iblock s) (granLog2 ino s) 65
        (firstRequest ino iblock s)).wp Q E H s) := by
  rw [expandFile, wp_bind, wp_get]
  exact wp_ite

theorem dvd_minRequest : 2 ^ granLog2 ino s ∣ minRequest ino iblock s :=
  dvd_alignUp

theorem granLog2_lt (hlog : s.fsm.logBlocksInLeb < 31) : granLog2 ino s < 31 := by
  rw [granLog2]
  split
  · exact hlog
  · decide

theorem two_pow_granLog2_le (hlog : s.fsm.logBlocksInLeb < 31) : 2 ^ granLog2 ino s ≤ 2 ^ 30 :=
  Nat.pow_le_pow_right (by decide) (Nat.le_of_lt_succ (granLog2_lt hlog))

theorem step_lt (ht : s.fsm.totalBlocks < 2 ^ 32) : s.fsm.totalBlocks >>> 7 < 2 ^ 25 := by
  rw [Nat.shiftRight_eq_div_pow]
  omega

section Requests

variable (hle : (s.forks ino).totalBlockCount ≤ iblock) (hlt : iblock < 2 ^ 64)

include hle hlt

-- Only the extents tree asks for less than the distance.
theorem lt_minRequest (hne : ino ≠ extentsTreeIno)
    (hd : iblock - (s.forks ino).totalBlockCount + 2 ^ granLog2 ino s < 2 ^ 64) :
    iblock - (s.forks ino).totalBlockCount < minRequest ino iblock s := by
  have hpos := Nat.two_pow_pos (granLog2 ino s)
  rw [minRequest, if_neg hne, u64Sub_of_le hle hlt, u64_of_lt (by omega)]
  exact le_alignUp (by omega)

variable (hlog : s.fsm.logBlocksInLeb < 31) (ht : s.fsm.totalBlocks < 2 ^ 32)

include hlog ht

theorem firstRequest_spec (hm : minRequest ino iblock s < 2 ^ 32)
    (hd : iblock - (s.forks ino).totalBlockCount < 2 ^ 63) :
    2 ^ granLog2 ino s ≤ firstRequest ino iblock s ∧ firstRequest ino iblock s < 2 ^ 32 ∧
      (ino = extentsTreeIno →
        firstRequest ino iblock s ≤ max (minRequest ino iblock s) (2 ^ granLog2 ino s)) := by
  have hpow : 2 ^ granLog2 ino s ≤ 2 ^ 30 := two_pow_granLog2_le hlog
  have hpos := Nat.two_pow_pos (granLog2 ino s)
  have hstep := step_lt ht
  have hdvd := @dvd_minRequest s ino iblock
  rw [firstRequest]
  by_cases he : ino = extentsTreeIno
  case pos =>
    have hcat : ino ≠ catTreeIno := by rw [he]; decide
    rw [if_neg hcat]
    have hmax : 2 ^ granLog2 ino s ∣ max (minRequest ino iblock s) (2 ^ granLog2 ino s) := by
      rcases max_choice (minRequest ino iblock s) (2 ^ granLog2 ino s) with h | h <;> rw [h]
      · exact hdvd
    have hup := alignUp_le hmax (v := max 1 (minRequest ino iblock s)) (by omega) (by omega)
    have hdown := le_alignUp (v := max 1 (minRequest ino iblock s)) (g := granLog2 ino s) (by omega)
    exact ⟨Nat.le_of_dvd (by omega) dvd_alignUp, by omega, fun _ => hup⟩
  case neg =>
    have hmin := lt_minRequest hle hlt he (by omega)
    generalize hr : (if ino = catTreeIno then s.fsm.totalBlocks >>> 7 else 1) = req
    have hreq : req < 2 ^ 25 := by
      rw [← hr]
      split <;> omega
    have hdown := le_alignUp (v := max req (minRequest ino iblock s)) (g := granLog2 ino s) (by omega)
    refine ⟨Nat.le_of_dvd (by omega) dvd_alignUp, ?_, fun h => absurd h he⟩
    rcases Nat.le_total req (minRequest ino iblock s) with h | h
    · rw [Nat.max_eq_right h]
      exact (alignUp_le hdvd le_rfl (by omega)).trans_lt hm
    · rw [Nat.max_eq_left h]
      have := alignUp_lt (v := req) (g := granLog2 ino s) (by omega)
      omega

theorem expandFile_spec (h : s.fsm.Manages free) (hsm : s.fsm.Small)
    (hfit : (s.forks ino).totalBlockCount + free.card < 2 ^ 32) :
    (expandFile ino iblock).wp (fun block s' => (iblock < (s'.forks ino).totalBlockCount ∧
      testBit s.fsm.data block = false ∧ testBit s'.fsm.data block) ↔ Covers ino iblock s)
      (fun _ _ => True) True s := by
  have hpow : 2 ^ granLog2 ino s ≤ 2 ^ 30 := two_pow_granLog2_le hlog
  have hstep := step_lt ht
  rw [wp_expandFile, h.count]
  refine ⟨fun _ => trivial, fun hfree => ?_⟩
  by_cases hd : iblock - (s.forks ino).totalBlockCount < 2 ^ 63
  case pos =>
    obtain ⟨hge, hlt', hext⟩ := firstRequest_spec hle hlt hlog ht (by omega) hd
    refine wp_mono (expandLoop_spec (granLog2_lt hlog) dvd_alignUp hge hlt'
      (by rwa [u64Sub_of_le hle hlt]) h hsm) (fun block s' hg => ?_) (fun _ _ _ => trivial) id
    obtain ⟨cnt, hlo, hhi, hiff⟩ := hg.reached_iff h hsm hle hlt hfit
    rw [hiff, Covers]
    by_cases he : ino = extentsTreeIno
    case pos =>
      have hcnt : cnt = max (2 ^ granLog2 ino s) (minRequest ino iblock s) := by
        have := hext he
        omega
      rw [if_pos he, hcnt, minRequest, if_pos he]
    case neg =>
      have := lt_minRequest hle hlt he (by omega)
      rw [if_neg he]
      exact iff_of_true (by omega) (by omega)
  case neg =>
    -- the end of a file is no block number of this size
    refine wp_mono wp_trivial (fun block s' _ => iff_of_false (fun hr => ?_) fun hc => ?_)
      (fun _ _ _ => trivial) fun _ => trivial
    · have := (s'.forks ino).total_lt
      omega
    · rw [Covers] at hc
      by_cases he : ino = extentsTreeIno
      case pos =>
        rw [if_pos he] at hc
        have := alignUp_lt (v := s.fsm.totalBlocks >>> 7) (g := granLog2 ino s) (by omega)
        omega
      case neg =>
        rw [if_neg he] at hc
        have := lt_minRequest hle hlt he hc
        omega

end Requests

-- When expand_file succeeds it has reached the block if and only if its request covers it. Its loop
-- ends within 65 turns, more of them would change nothing.
theorem expandFile_reaches_iff (hlog : s.fsm.logBlocksInLeb < 31) (ht : s.fsm.totalBlocks < 2 ^ 32)
    (h : s.fsm.Manages free) (hsm : s.fsm.Small)
    (hfit : (s.forks ino).totalBlockCount + free.card < 2 ^ 32)
    (hle : (s.forks ino).totalBlockCount ≤ iblock) (hlt : iblock < 2 ^ 64) :
    (∀ block s', expandFile ino iblock s = .ok block s' →
      ((iblock < (s'.forks ino).totalBlockCount ∧
        testBit s.fsm.data block = false ∧ testBit s'.fsm.data block) ↔ Covers ino iblock s)) ∧
    (∀ turns, 65 ≤ turns →
      expandLoop ino iblock (minRequest ino iblock s) (granLog2 ino s) turns
        (firstRequest ino iblock s) s =
      expandLoop ino iblock (minRequest ino iblock s) (granLog2 ino s) 65
        (firstRequest ino iblock s) s) := by
  refine ⟨fun block s' hok => (wp_of_ok hok).mp (expandFile_spec hle hlt hlog ht h hsm hfit),
    fun turns hturns => ?_⟩
  have hgran : granLog2 ino s < 31 := granLog2_lt hlog
  have hd : 2 ^ granLog2 ino s ∣ firstRequest ino iblock s := dvd_alignUp
  have hreq : firstRequest ino iblock s ≤ 2 ^ (granLog2 ino s + (64 - granLog2 ino s)) := by
    rw [Nat.add_sub_of_le (by omega)]
    exact (Nat.sub_le ..).trans (Nat.mod_lt _ (by decide)).le
  have hmany : 64 - granLog2 ino s < turns := by omega
  have hall : 64 - granLog2 ino s < 65 := by omega
  exact congrFun ((expandLoop_turns (by omega) hd hreq hmany).trans
    (expandLoop_turns (by omega) hd hreq hall).symm) s

theorem expandFile_reaches_iff_fortyVolume :
    ∃ block s', expandFile firstFileIno 7 fortyVolume = .ok block s' ∧
      7 < (s'.forks firstFileIno).totalBlockCount ∧ testBit s'.fsm.data block := by
  have hok : ∃ block s', expandFile firstFileIno 7 fortyVolume = .ok block s' := ⟨_, _, rfl⟩
  obtain ⟨block, s', hok⟩ := hok
  have hfit : (fortyVolume.forks firstFileIno).totalBlockCount + (clearBits fortyBlocks.data 40).card <
      2 ^ 32 := by
    have := card_clearBits_le fortyBlocks.data 40
    have : (fortyVolume.forks firstFileIno).totalBlockCount = 6 := rfl
    omega
  have hle : (fortyVolume.forks firstFileIno).totalBlockCount ≤ 7 := by decide
  have hiff := (expandFile_reaches_iff (by decide) (by decide) fortyFree_manages
    ⟨by decide, by decide⟩ hfit hle (by decide)).left block s' hok
  obtain ⟨hlt, _, hset⟩ := hiff.mpr (by rw [Covers]; decide)
  exact ⟨block, s', hok, hlt, hset⟩

-- The extents tree asks for one block although the block after the next one is wanted.
theorem not_reached_fortyVolume :
    ∃ s', expandFile extentsTreeIno 8 fortyVolume = .ok 38 s' ∧
      (s'.forks extentsTreeIno).totalBlockCount = 7 ∧ testBit s'.fsm.data 38 = false :=
  ⟨_, rfl, rfl, rfl⟩

end Reach

end Emmcfs.Expansion
